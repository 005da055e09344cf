/-
  No entropy is lost.

  As a number of `8 * len` bits, a hash is rotated by every round of
  `bloom_determine_offsets`, after a multiplication by an odd number; the words
  that `filter_index_host_name_hash_transform` writes are multiplied by an odd
  number each.  Both are permutations of the hashes of one length.

  `hashEntropy_kept`: both, and the working hash after any number of rounds.
-/
import Honas.BloomOffsets
import Honas.State

namespace Honas

open Bits MulRotate

/-- The hashes of one length. -/
def Hashes (len : ℕ) : Set (List Byte) := {hash | hash.length = len}

theorem ofLE_injective {a b : List Byte} (hl : a.length = b.length) (h : ofLE a = ofLE b) :
    a = b := by
  rw [← toLE_ofLE a, ← toLE_ofLE b, hl, h]

/-- The hashes of one length are the numbers of `8 * len` bits. -/
theorem bijOn_ofLE (len : ℕ) : Set.BijOn ofLE (Hashes len) (Set.Iio (2 ^ (8 * len))) := by
  have h256 : 256 ^ len = 2 ^ (8 * len) := by rw [pow_mul]; norm_num
  refine ⟨fun a ha => ?_, fun a ha b hb h => ?_, fun n hn => ⟨toLE len n, length_toLE len n, ?_⟩⟩
  · rw [Set.mem_Iio, ← h256, ← (show a.length = len from ha)]
    exact ofLE_lt a
  · exact ofLE_injective ((show a.length = len from ha).trans (show b.length = len from hb).symm) h
  · rw [ofLE_toLE, h256]
    exact Nat.mod_eq_of_lt hn

theorem bijOn_toLE (len : ℕ) : Set.BijOn (toLE len) (Set.Iio (2 ^ (8 * len))) (Hashes len) := by
  have h256 : 256 ^ len = 2 ^ (8 * len) := by rw [pow_mul]; norm_num
  refine ⟨fun n _ => length_toLE len n, fun n hn m hm h => ?_, fun a ha => ⟨ofLE a, ?_, ?_⟩⟩
  · have := congrArg ofLE h
    rw [ofLE_toLE, ofLE_toLE, h256] at this
    rwa [Nat.mod_eq_of_lt hn, Nat.mod_eq_of_lt hm] at this
  · exact (bijOn_ofLE len).mapsTo ha
  · rw [← (show a.length = len from ha)]
    exact toLE_ofLE a

/-! ## A round -/

theorem bijOn_roundHash {bs len : ℕ} (h0 : 0 < bs) (hlt : bs < 2 ^ 32) (hl : 4 ≤ len) :
    Set.BijOn (roundHash bs) (Hashes len) (Hashes len) := by
  have hpow : 2 ^ 32 ≤ 2 ^ (8 * len) := Nat.pow_le_pow_right (by norm_num) (by omega)
  have hcomp := (bijOn_toLE len).comp
    ((bijOn_mulReadd (L := 8 * len) h0 (hlt.le.trans hpow)).comp (bijOn_ofLE len))
  refine hcomp.congr fun hash hh => ?_
  rw [roundHash, show hash.length = len from hh]
  rfl

/-- The working hash after rounds with the given multipliers. -/
def roundsHash (multipliers : List ℕ) (hash : List Byte) : List Byte :=
  multipliers.foldl (fun hash bs => roundHash bs hash) hash

theorem foldl_roundStep_fst : ∀ (multipliers : List ℕ) (state : List Byte × List ℕ),
    (multipliers.foldl roundStep state).1 = roundsHash multipliers state.1
  | [], _ => rfl
  | bs :: multipliers, state => by
    rw [List.foldl_cons, foldl_roundStep_fst multipliers]
    rfl

theorem bijOn_roundsHash {len : ℕ} (hl : 4 ≤ len) : ∀ {multipliers : List ℕ},
    (∀ bs ∈ multipliers, 0 < bs ∧ bs < 2 ^ 32) →
      Set.BijOn (roundsHash multipliers) (Hashes len) (Hashes len)
  | [], _ => Set.bijOn_id _
  | bs :: multipliers, hm => by
    obtain ⟨h0, hlt⟩ := hm bs List.mem_cons_self
    exact (bijOn_roundsHash hl fun bs h => hm bs (List.mem_cons_of_mem _ h)).comp
      (bijOn_roundHash h0 hlt hl)

/-! ## The transformation by filter index -/

/-- The words are multiplied one by one, each by the same odd number. -/
theorem bijOn_transformWords {m : ℕ} (hm : Odd m) : ∀ n : ℕ,
    Set.BijOn (transformWords m n) (Hashes (8 * n)) (Hashes (8 * n))
  | 0 => by
    have hnil : ∀ hash ∈ Hashes (8 * 0), hash = [] := fun hash h => List.eq_nil_of_length_eq_zero h
    refine ⟨fun _ _ => rfl, fun a ha b hb _ => ?_, fun b hb => ⟨[], rfl, ?_⟩⟩
    · rw [hnil a ha, hnil b hb]
    · rw [hnil b hb]; rfl
  | n + 1 => by
    have ih := bijOn_transformWords hm n
    have hword := (bijOn_toLE 8).comp ((bijOn_mul_mod (L := 8 * 8) hm).comp (bijOn_ofLE 8))
    have hmod : ∀ word ∈ Hashes 8, toLE 8 (ofLE word * m) =
        (toLE 8 ∘ (fun x => x * m % 2 ^ (8 * 8)) ∘ ofLE) word := fun word _ => by
      refine ofLE_injective (by simp) ?_
      simp only [Function.comp_apply, ofLE_toLE]
      norm_num
    have htake : ∀ hash ∈ Hashes (8 * (n + 1)), hash.take 8 ∈ Hashes 8 := fun hash h => by
      have : hash.length = 8 * (n + 1) := h
      show (hash.take 8).length = 8
      rw [List.length_take]; omega
    have hdrop : ∀ hash ∈ Hashes (8 * (n + 1)), hash.drop 8 ∈ Hashes (8 * n) := fun hash h => by
      have : hash.length = 8 * (n + 1) := h
      show (hash.drop 8).length = 8 * n
      rw [List.length_drop]; omega
    have hstep : ∀ hash, transformWords m (n + 1) hash =
        toLE 8 (ofLE (hash.take 8) * m) ++ transformWords m n (hash.drop 8) := fun _ => rfl
    refine ⟨fun hash h => ?_, fun a ha b hb h => ?_, fun hash h => ?_⟩
    · have := ih.mapsTo (hdrop hash h)
      show (transformWords m (n + 1) hash).length = 8 * (n + 1)
      rw [hstep, List.length_append, length_toLE, show (transformWords m n (hash.drop 8)).length =
        8 * n from this]
      omega
    · rw [hstep, hstep] at h
      obtain ⟨h1, h2⟩ := List.append_inj h (by simp)
      rw [hmod _ (htake a ha), hmod _ (htake b hb)] at h1
      have e1 := hword.injOn (htake a ha) (htake b hb) h1
      have e2 := ih.injOn (hdrop a ha) (hdrop b hb) h2
      rw [← List.take_append_drop 8 a, ← List.take_append_drop 8 b, e1, e2]
    · obtain ⟨word, hw, he1⟩ := hword.surjOn (htake hash h)
      obtain ⟨rest, hr, he2⟩ := ih.surjOn (hdrop hash h)
      have hw8 : word.length = 8 := hw
      refine ⟨word ++ rest, ?_, ?_⟩
      · show (word ++ rest).length = 8 * (n + 1)
        rw [List.length_append, hw8, show rest.length = 8 * n from hr]
        omega
      · rw [hstep, List.take_left' hw8, List.drop_left' hw8, hmod _ hw, he1, he2,
          List.take_append_drop]

/-- The multiplier is odd, also when it wraps around. -/
theorem odd_transform_multiplier (filterIndex : ℕ) : Odd (u32 (filterIndex * 2 + 1)) := by
  unfold u32
  rw [Nat.odd_iff]
  omega

/-! ## Nothing is lost -/

/-- A function that succeeds on a set and permutes it. -/
def Permutes {α : Type*} (f : α → Option α) (s : Set α) : Prop :=
  ∃ g : α → α, Set.BijOn g s s ∧ ∀ x ∈ s, f x = some (g x)

theorem permutes_filterIndexHostNameHashTransform (filterIndex : ℕ) {len : ℕ} (h8 : len % 8 = 0) :
    Permutes (filterIndexHostNameHashTransform filterIndex) (Hashes len) := by
  by_cases hf : filterIndex = 0
  · refine ⟨id, Set.bijOn_id _, fun src _ => ?_⟩
    rw [filterIndexHostNameHashTransform, if_pos hf]
    rfl
  · have hlen : len = 8 * (len / 8) := by omega
    have hbij := bijOn_transformWords (odd_transform_multiplier filterIndex) (len / 8)
    rw [← hlen] at hbij
    refine ⟨_, hbij, fun src h => ?_⟩
    have hsrc : src.length = len := h
    rw [filterIndexHostNameHashTransform, if_neg hf, hsrc, if_pos h8]

/-- The working hash of one round, without the offsets. -/
theorem permutes_bloomRound {b : ℕ} {mul : List Byte → ℕ → Option (List Byte × ℕ)}
    (hw : MulWidth b mul) {bs len : ℕ} (hbs : 0 < bs ∧ bs < 2 ^ 32) (h0 : 0 < len)
    (h8 : len % 8 = 0) (offsets : List ℕ) :
    Permutes (fun hash => (bloomRound b mul (hash, offsets) bs).map Prod.fst) (Hashes len) := by
  have hb : len % b = 0 := by rcases hw.cases with rfl | rfl <;> omega
  refine ⟨roundHash bs, bijOn_roundHash hbs.1 hbs.2 (by omega), fun hash h => ?_⟩
  have hl : hash.length = len := h
  dsimp only
  rw [bloomRound_eq hw hbs.1 hbs.2 (by omega) (by rw [hl]; exact hb)]
  rfl

/-- The working hash after any number of rounds. -/
theorem permutes_bloomStateAfter (hasByteSliceMul64 : Bool) (num : ℕ) {filtersize len : ℕ}
    (h2 : filtersize < 2 ^ 29) (h0 : 0 < len) (h8 : len % 8 = 0) (j : ℕ) :
    Permutes (fun hash => (bloomStateAfter hasByteSliceMul64 num filtersize hash j).map Prod.fst)
      (Hashes len) := by
  refine ⟨roundsHash ((bloomMultipliers num filtersize).take j),
    bijOn_roundsHash (by omega) fun bs h => mem_bloomMultipliers h2 (List.mem_of_mem_take h),
    fun hash h => ?_⟩
  have hl : hash.length = len := h
  dsimp only
  rw [bloomStateAfter_eq hasByteSliceMul64 h2 (by omega) (by omega), Option.map_some,
    foldl_roundStep_fst]

/-- **No entropy is lost**: the transformation by filter index and a round with
    any multiplier permute the hashes of a length, and so the working hash
    after any number of rounds determines the hash. -/
theorem hashEntropy_kept {len : ℕ} (h0 : 0 < len) (h8 : len % 8 = 0) :
    (∀ filterIndex, Permutes (filterIndexHostNameHashTransform filterIndex) (Hashes len)) ∧
    (∀ b mul, MulWidth b mul → ∀ bs, 1 ≤ bs → bs < 2 ^ 32 → ∀ offsets,
      Permutes (fun hash => (bloomRound b mul (hash, offsets) bs).map Prod.fst) (Hashes len)) ∧
    ∀ hasByteSliceMul64 num filtersize, filtersize < 2 ^ 29 → ∀ j, ∀ a ∈ Hashes len,
      ∀ b ∈ Hashes len,
      (bloomStateAfter hasByteSliceMul64 num filtersize a j).map Prod.fst =
        (bloomStateAfter hasByteSliceMul64 num filtersize b j).map Prod.fst → a = b := by
  refine ⟨fun filterIndex => permutes_filterIndexHostNameHashTransform filterIndex h8,
    fun b mul hw bs h1 hlt offsets => permutes_bloomRound hw ⟨h1, hlt⟩ h0 h8 offsets,
    fun build num filtersize h2 j x hx y hy h => ?_⟩
  obtain ⟨g, hg, he⟩ := permutes_bloomStateAfter build num h2 h0 h8 j
  have hxy : some (g x) = some (g y) := (he x hx).symm.trans (h.trans (he y hy))
  exact hg.injOn hx hy (Option.some.inj hxy)

/-- Digests of 32 bytes. -/
theorem hashEntropy_kept_digest : Permutes (filterIndexHostNameHashTransform 7) (Hashes 32) :=
  (hashEntropy_kept (by decide) (by decide)).1 7

end Honas
