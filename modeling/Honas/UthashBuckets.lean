/-
  The buckets of the hash table.

  `Buckets` says that each bucket has the chain of the elements whose hash value belongs to
  it.  A new element may be put in front of its chain (`Buckets.push`), a chain is searched
  (`hashFindInBkt_eq`), and all elements can be moved to twice as many buckets
  (`Buckets.expand`), unless their number wraps around (`Buckets.expand_wraps`).  All of this
  changes links in the chains only (`Relinked`).
-/
import Honas.Uthash
import Honas.Lib.Run

namespace Honas

open Bits LinkedChain

variable {ι α : Type} {m m' m'' : Elements ι α}

/-! ## Links -/

namespace Elements

/-- The links in the order of the additions. -/
def links (m : Elements ι α) (x : ι) : Option (Link ι) := (m x).map fun e => ⟨e.prev, e.next⟩

/-- The links in the chains of the buckets. -/
def hhLinks (m : Elements ι α) (x : ι) : Option (Link ι) := (m x).map fun e => ⟨e.hhPrev, e.hhNext⟩

/-- The key of an element. -/
def keyOf (m : Elements ι α) (x : ι) : Option (List Byte) := (m x).map Element.key

/-- The bucket of an element. -/
def bktOf (m : Elements ι α) (num : ℕ) (x : ι) : Option ℕ :=
  (m x).map fun e => hashToBkt e.hashv num

end Elements

/-- The data of an element that is not a link. -/
def Element.data (e : Element ι α) : List Byte × BitVec 32 × α := (e.key, e.hashv, e.value)

/-- Only links in the chains of some elements have changed. -/
structure Relinked (m m' : Elements ι α) (items : Set ι) : Prop where
  same : ∀ y, y ∉ items → m' y = m y
  links : m'.links = m.links
  data : ∀ y, (m' y).map Element.data = (m y).map Element.data

namespace Relinked

variable {items more : Set ι}

theorem refl (m : Elements ι α) : Relinked m m items := ⟨fun _ _ => rfl, rfl, fun _ => rfl⟩

theorem trans (h : Relinked m m' items) (h' : Relinked m' m'' more) (hle : items ⊆ more) :
    Relinked m m'' more :=
  ⟨fun y hy => (h'.same y hy).trans (h.same y fun hmem => hy (hle hmem)), h'.links.trans h.links,
    fun y => (h'.data y).trans (h.data y)⟩

theorem bktOf (h : Relinked m m' items) (num : ℕ) (x : ι) : m'.bktOf num x = m.bktOf num x := by
  have hdata := congrArg (Option.map fun d : List Byte × BitVec 32 × α => hashToBkt d.2.1 num)
    (h.data x)
  rw [Option.map_map, Option.map_map] at hdata
  exact hdata

theorem keyOf (h : Relinked m m' items) (x : ι) : m'.keyOf x = m.keyOf x := by
  have hdata := congrArg (Option.map Prod.fst) (h.data x)
  rw [Option.map_map, Option.map_map] at hdata
  exact hdata

theorem hashv (h : Relinked m m' items) {x : ι} {e : Element ι α} (he : m x = some e) :
    ∃ e', m' x = some e' ∧ e'.hashv = e.hashv := by
  have hdata := h.data x
  rw [he, Option.map_some] at hdata
  obtain ⟨e', he', hd⟩ := Option.map_eq_some_iff.1 hdata
  exact ⟨e', he', congrArg (fun d => d.2.1) hd⟩

end Relinked

/-- Only links in the order of the additions have changed, of some elements. -/
structure Reordered (m m' : Elements ι α) (items : Set ι) : Prop where
  same : ∀ y, y ∉ items → m' y = m y
  hhLinks : m'.hhLinks = m.hhLinks
  data : ∀ y, (m' y).map Element.data = (m y).map Element.data

theorem Reordered.trans {items : Set ι} (h : Reordered m m' items) (h' : Reordered m' m'' items) :
    Reordered m m'' items :=
  ⟨fun y hy => (h'.same y hy).trans (h.same y hy), h'.hhLinks.trans h.hhLinks,
    fun y => (h'.data y).trans (h.data y)⟩

/-! ## Chains -/

/-- A bucket has a chain. -/
structure BucketChain (m : Elements ι α) (bucket : UtHashBucket ι) (xs : List ι) : Prop where
  head : bucket.hhHead = xs.head?
  count : bucket.count = xs.length
  nodup : xs.Nodup
  linked : Chain m.hhLinks none xs none

/-- The buckets of some elements. -/
structure Buckets (m : Elements ι α) (num : ℕ) (bs : List (UtHashBucket ι)) (items : Set ι) :
    Prop where
  length : bs.length = num
  chain : ∀ b < num, ∃ bucket xs, bs[b]? = some bucket ∧ BucketChain m bucket xs ∧
    ∀ x, x ∈ xs ↔ x ∈ items ∧ m.bktOf num x = some b

theorem mem_of_chain {x : ι} {xs : List ι} {before after : Option ι}
    (h : Chain m.hhLinks before xs after) (hx : x ∈ xs) : ∃ e, m x = some e := by
  obtain ⟨link, hlink⟩ := h.isSome x hx
  obtain ⟨e, he, -⟩ := Option.map_eq_some_iff.1 hlink
  exact ⟨e, he⟩

variable {num : ℕ} {bs : List (UtHashBucket ι)} {items : Set ι}

/-- Other elements do not matter. -/
theorem Buckets.congr (h : Buckets m num bs items) (hlinks : ∀ x ∈ items, m'.hhLinks x = m.hhLinks x)
    (hbkt : ∀ x ∈ items, m'.bktOf num x = m.bktOf num x) : Buckets m' num bs items := by
  refine ⟨h.length, fun b hb => ?_⟩
  obtain ⟨bucket, xs, hbucket, hchain, hmem⟩ := h.chain b hb
  refine ⟨bucket, xs, hbucket, ⟨hchain.head, hchain.count, hchain.nodup, ?_⟩, fun x => ?_⟩
  · exact hchain.linked.congr fun y hy => hlinks y ((hmem y).1 hy).1
  · rw [hmem]
    exact and_congr_right fun hx => by rw [hbkt x hx]

theorem Buckets.reordered {more : Set ι} (h : Buckets m num bs items) (hr : Reordered m m' more) :
    Buckets m' num bs items := by
  refine h.congr (fun x _ => congrFun hr.hhLinks x) fun x _ => ?_
  have hdata := congrArg (Option.map fun d : List Byte × BitVec 32 × α => hashToBkt d.2.1 num)
    (hr.data x)
  rw [Option.map_map, Option.map_map] at hdata
  exact hdata

/-- Buckets without elements. -/
theorem buckets_zero (m : Elements ι α) (num : ℕ) : Buckets m num (List.replicate num .zero) ∅ := by
  refine ⟨List.length_replicate, fun b hb => ⟨.zero, [], ?_, ⟨rfl, rfl, List.nodup_nil, trivial⟩, ?_⟩⟩
  · rw [List.getElem?_replicate, if_pos hb]
  · exact fun x => ⟨fun hx => absurd hx List.not_mem_nil, fun hx => hx.1.elim⟩

theorem predU32_eq {n : ℕ} (h0 : 0 < n) (hle : n ≤ 2 ^ 32) : predU32 n = n - 1 := by
  rw [predU32, u32]
  omega

theorem hashToBkt_lt {num : ℕ} (hnum : 0 < num) (hle : num ≤ 2 ^ 32) (hashv : BitVec 32) :
    hashToBkt hashv num < num := by
  have hmask : hashToBkt hashv num ≤ predU32 num := Nat.and_le_right
  rw [predU32_eq hnum hle] at hmask
  omega

/-- **A chain is searched** from its first element to its last one. -/
theorem hashFindInBkt_eq (key : List Byte) : ∀ {xs : List ι} {before : Option ι},
    Chain m.hhLinks before xs none →
    hashFindInBkt m key xs.length xs.head? = some (xs.find? fun x => m.keyOf x = some key)
  | [], _, _ => rfl
  | x :: xs, _, h => by
    obtain ⟨hx, hxs⟩ := h
    obtain ⟨e, he, hlink⟩ := Option.map_eq_some_iff.1 hx
    have hnext : e.hhNext = xs.head? := by
      rw [← Option.or_none (o := xs.head?)]
      exact congrArg Link.next hlink
    have hkey : m.keyOf x = some e.key := by
      rw [Elements.keyOf, he, Option.map_some]
    rw [List.length_cons, List.head?_cons, hashFindInBkt, he, List.find?_cons, hkey]
    by_cases hk : e.key = key
    · subst hk
      rw [decide_eq_true rfl]
      exact if_pos ⟨rfl, rfl⟩
    · rw [decide_eq_false fun h => hk (Option.some.inj h)]
      refine (if_neg fun h => hk h.2).trans ?_
      rw [hnext]
      exact hashFindInBkt_eq key hxs

variable [DecidableEq ι]

/-! ## Assignments -/

namespace Elements

/-- The elements after an assignment. -/
def assigned (m : Elements ι α) (pointer : Option ι) (f : Element ι α → Element ι α) :
    Elements ι α :=
  fun y => if some y = pointer then (m y).map f else m y

/-- An assignment through a pointer to an element. -/
theorem assign_eq {pointer : Option ι} (h : ∀ x, pointer = some x → ∃ e, m x = some e)
    (f : Element ι α → Element ι α) : m.assign pointer f = some (m.assigned pointer f) := by
  cases pointer with
  | none => exact congrArg some (funext fun y => (if_neg nofun).symm)
  | some x =>
    obtain ⟨e, he⟩ := h x rfl
    rw [assign, he, Option.map_some]
    refine congrArg some (funext fun y => ?_)
    rw [assigned]
    by_cases hy : y = x
    · subst hy
      rw [Function.update_self, if_pos rfl, he, Option.map_some]
    · rw [Function.update_of_ne hy, if_neg fun h => hy (Option.some.inj h)]

theorem assigned_of_ne {pointer : Option ι} {y : ι} (h : some y ≠ pointer)
    (f : Element ι α → Element ι α) : m.assigned pointer f y = m y := if_neg h

theorem assigned_self {x : ι} {e : Element ι α} (h : m x = some e) (f : Element ι α → Element ι α) :
    m.assigned (some x) f x = some (f e) := by
  rw [assigned, if_pos rfl, h, Option.map_some]

/-- What an assignment does not change. -/
theorem map_assigned {β : Type*} {g : Element ι α → β} {f : Element ι α → Element ι α}
    (hg : ∀ e, g (f e) = g e) (pointer : Option ι) (y : ι) :
    (m.assigned pointer f y).map g = (m y).map g := by
  rw [assigned]
  split_ifs
  · rw [Option.map_map]
    exact congrArg (Option.map · _) (funext hg)
  · rfl

theorem hhLinks_assigned_hhPrev (pointer before : Option ι) :
    (m.assigned pointer fun e => { e with hhPrev := before }).hhLinks =
      setPrev m.hhLinks pointer before := by
  funext y
  rw [hhLinks, assigned, setPrev, hhLinks]
  split_ifs
  · rw [Option.map_map, Option.map_map]
    rfl
  · rfl

theorem hhLinks_assigned_hhNext (pointer after : Option ι) :
    (m.assigned pointer fun e => { e with hhNext := after }).hhLinks =
      setNext m.hhLinks pointer after := by
  funext y
  rw [hhLinks, assigned, setNext, hhLinks]
  split_ifs
  · rw [Option.map_map, Option.map_map]
    rfl
  · rfl

theorem links_assigned_prev (pointer before : Option ι) :
    (m.assigned pointer fun e => { e with prev := before }).links =
      setPrev m.links pointer before := by
  funext y
  rw [links, assigned, setPrev, links]
  split_ifs
  · rw [Option.map_map, Option.map_map]
    rfl
  · rfl

theorem links_assigned_next (pointer after : Option ι) :
    (m.assigned pointer fun e => { e with next := after }).links =
      setNext m.links pointer after := by
  funext y
  rw [links, assigned, setNext, links]
  split_ifs
  · rw [Option.map_map, Option.map_map]
    rfl
  · rfl

theorem links_assigned_hashv (pointer : Option ι) (hashv : BitVec 32) :
    (m.assigned pointer fun e => { e with hashv := hashv }).links = m.links := by
  funext y
  rw [links, assigned, links]
  split_ifs
  · rw [Option.map_map]
    rfl
  · rfl

end Elements

/-- An assignment to links in the chains. -/
theorem relinked_assigned {pointer : Option ι} {f : Element ι α → Element ι α}
    (hlinks : ∀ e, (⟨(f e).prev, (f e).next⟩ : Link ι) = ⟨e.prev, e.next⟩)
    (hdata : ∀ e, (f e).data = e.data) (hpointer : ∀ x, pointer = some x → x ∈ items) :
    Relinked m (m.assigned pointer f) items :=
  ⟨fun _ hy => Elements.assigned_of_ne (fun heq => hy (hpointer _ heq.symm)) f,
    funext fun y => Elements.map_assigned hlinks pointer y,
    fun y => Elements.map_assigned hdata pointer y⟩

/-- An assignment to links in the order of the additions. -/
theorem reordered_assigned {pointer : Option ι} {f : Element ι α → Element ι α}
    (hlinks : ∀ e, (⟨(f e).hhPrev, (f e).hhNext⟩ : Link ι) = ⟨e.hhPrev, e.hhNext⟩)
    (hdata : ∀ e, (f e).data = e.data) (hpointer : ∀ x, pointer = some x → x ∈ items) :
    Reordered m (m.assigned pointer f) items :=
  ⟨fun _ hy => Elements.assigned_of_ne (fun heq => hy (hpointer _ heq.symm)) f,
    funext fun y => Elements.map_assigned hlinks pointer y,
    fun y => Elements.map_assigned hdata pointer y⟩

/-! ## Putting an element in front -/

/-- **An element is put in front of its chain**: the elements, and the bucket before. -/
theorem Buckets.push (h : Buckets m num bs items) {x : ι} (hx : x ∉ items) {e : Element ι α}
    (he : m x = some e) (hnum : 0 < num) (hle : num ≤ 2 ^ 32) :
    ∃ bucket m', bs[hashToBkt e.hashv num]? = some bucket ∧
      hashPush m bucket.hhHead x = some m' ∧
      (∀ k, Buckets m' num (bs.set (hashToBkt e.hashv num) ⟨some x, bucket.count + 1, k⟩)
        (insert x items)) ∧ Relinked m m' (insert x items) := by
  have hlt := hashToBkt_lt hnum hle e.hashv
  obtain ⟨bucket, xs, hbucket, hchain, hmem⟩ := h.chain _ hlt
  have hxs : x ∉ xs := fun hmem' => hx ((hmem x).1 hmem').1
  have hne : ∀ y ∈ xs, y ≠ x := fun y hy => ne_of_mem_of_not_mem hy hxs
  set m₁ := m.assigned (some x) fun e => { e with hhPrev := none, hhNext := xs.head? } with hm₁
  set m₂ := m₁.assigned xs.head? fun e => { e with hhPrev := some x } with hm₂
  have hsame₁ : ∀ y, y ≠ x → m₁ y = m y := fun y hy =>
    Elements.assigned_of_ne (fun heq => hy (Option.some.inj heq)) _
  have hpush : hashPush m bucket.hhHead x = some m₂ := by
    rw [hashPush, hchain.head, Elements.assign_eq (by rintro y ⟨⟩; exact ⟨e, he⟩)]
    refine Elements.assign_eq (fun y hy => ?_) _
    have hy := List.mem_of_head? hy
    rw [← hm₁, hsame₁ y (hne y hy)]
    exact mem_of_chain hchain.linked hy
  have hlinks₁ : m₁.hhLinks = Function.update m.hhLinks x (some ⟨none, xs.head?⟩) := by
    funext y
    by_cases hy : y = x
    · subst hy
      rw [Function.update_self, Elements.hhLinks, hm₁, Elements.assigned_self he, Option.map_some]
    · rw [Function.update_of_ne hy, Elements.hhLinks, hsame₁ y hy, Elements.hhLinks]
  have hlinks₂ : m₂.hhLinks = setPrev m₁.hhLinks xs.head? (some x) :=
    Elements.hhLinks_assigned_hhPrev ..
  have hrel₁ : Relinked m m₁ (insert x items) := relinked_assigned (fun _ => rfl) (fun _ => rfl)
    (by rintro y ⟨⟩; exact Set.mem_insert x items)
  have hrel₂ : Relinked m₁ m₂ (insert x items) := relinked_assigned (fun _ => rfl) (fun _ => rfl)
    fun y hy => Set.mem_insert_of_mem x ((hmem y).1 (List.mem_of_head? hy)).1
  have hrel : Relinked m m₂ (insert x items) := hrel₁.trans hrel₂ le_rfl
  have hbktx : m.bktOf num x = some (hashToBkt e.hashv num) := by
    rw [Elements.bktOf, he, Option.map_some]
  refine ⟨bucket, m₂, hbucket, hpush, fun k => ⟨?_, fun b hb => ?_⟩, hrel⟩
  · rw [List.length_set, h.length]
  by_cases hbe : hashToBkt e.hashv num = b
  · subst hbe
    refine ⟨⟨some x, bucket.count + 1, k⟩, x :: xs, ?_, ⟨rfl, ?_, List.nodup_cons.2 ⟨hxs, hchain.nodup⟩, ?_⟩, fun y => ?_⟩
    · rw [List.getElem?_set_self (by rwa [h.length])]
    · rw [hchain.count, List.length_cons]
    · rw [hlinks₂, hlinks₁]
      have hpushed := hchain.linked.push hchain.nodup hxs
      rwa [Option.or_none] at hpushed
    · rw [List.mem_cons, hmem, hrel.bktOf, Set.mem_insert_iff, or_and_right]
      refine or_congr_left ⟨?_, And.left⟩
      rintro rfl
      exact ⟨rfl, hbktx⟩
  · -- the chains of the other buckets are as before
    obtain ⟨bucket', xs', hbucket', hchain', hmem'⟩ := h.chain b hb
    refine ⟨bucket', xs', ?_, ⟨hchain'.head, hchain'.count, hchain'.nodup, ?_⟩, fun y => ?_⟩
    · rw [List.getElem?_set_ne hbe, hbucket']
    · refine hchain'.linked.congr fun y hy => ?_
      obtain ⟨hitems, hbkt⟩ := (hmem' y).1 hy
      have hyx : y ≠ x := ne_of_mem_of_not_mem hitems hx
      have hhead : some y ≠ xs.head? := by
        intro heq
        obtain ⟨-, hbkt'⟩ := (hmem y).1 (List.mem_of_head? heq.symm)
        exact hbe (Option.some.inj (hbkt'.symm.trans hbkt))
      rw [hlinks₂, setPrev_of_ne hhead, hlinks₁, Function.update_of_ne hyx]
    · rw [hmem', hrel.bktOf, Set.mem_insert_iff, or_and_right]
      refine ⟨.inr, fun hor => hor.resolve_left ?_⟩
      rintro ⟨rfl, hbkt⟩
      exact hbe (Option.some.inj (hbktx.symm.trans hbkt))

/-! ## Taking an element out -/

/-- **An element is taken out of its chain**: the elements, the bucket before, and after. -/
theorem Buckets.remove (h : Buckets m num bs items) {x : ι} (hx : x ∈ items) {e : Element ι α}
    (he : m x = some e) (hnum : 0 < num) (hle : num ≤ 2 ^ 32) :
    ∃ bucket m' bucket', bs[hashToBkt e.hashv num]? = some bucket ∧
      hashDelInBkt m bucket x = some (m', bucket') ∧
      Buckets m' num (bs.set (hashToBkt e.hashv num) bucket') (items \ {x}) ∧
      Relinked m m' items := by
  have hlt := hashToBkt_lt hnum hle e.hashv
  have hbktx : m.bktOf num x = some (hashToBkt e.hashv num) := by
    rw [Elements.bktOf, he, Option.map_some]
  obtain ⟨bucket, chain, hbucket, hchain, hmem⟩ := h.chain _ hlt
  obtain ⟨xs, ys, rfl⟩ := List.append_of_mem ((hmem x).2 ⟨hx, hbktx⟩)
  obtain ⟨hprev, hnext⟩ : e.hhPrev = xs.getLast? ∧ e.hhNext = ys.head? := by
    obtain ⟨-, hlink, -⟩ := chain_append.1 hchain.linked
    rw [Elements.hhLinks, he, Option.map_some, Option.or_none, Option.or_none] at hlink
    obtain ⟨hprev, hnext⟩ := Link.mk.inj (Option.some.inj hlink)
    exact ⟨hprev, hnext⟩
  have hxs : ∀ y, xs.getLast? = some y → y ∈ items := fun y hy =>
    ((hmem y).1 (List.mem_append_left _ (List.mem_of_getLast? hy))).1
  have hys : ∀ y, ys.head? = some y → y ∈ items := fun y hy =>
    ((hmem y).1 (List.mem_append_right _ (List.mem_cons_of_mem x (List.mem_of_head? hy)))).1
  set m₁ := m.assigned xs.getLast? fun p => { p with hhNext := ys.head? }
  set m₂ := m₁.assigned ys.head? fun n => { n with hhPrev := xs.getLast? }
  have hrel₁ : Relinked m m₁ items := relinked_assigned (fun _ => rfl) (fun _ => rfl) hxs
  have hrel₂ : Relinked m₁ m₂ items := relinked_assigned (fun _ => rfl) (fun _ => rfl) hys
  have hrel := hrel₁.trans hrel₂ le_rfl
  have hassign₁ : m.assign xs.getLast? (fun p => { p with hhNext := ys.head? }) = some m₁ :=
    Elements.assign_eq (fun y hy => mem_of_chain hchain.linked
      (List.mem_append_left _ (List.mem_of_getLast? hy))) _
  have hassign₂ : m₁.assign ys.head? (fun n => { n with hhPrev := xs.getLast? }) = some m₂ := by
    refine Elements.assign_eq (fun y hy => ?_) _
    obtain ⟨ey, hey⟩ := mem_of_chain hchain.linked
      (List.mem_append_right xs (List.mem_cons_of_mem x (List.mem_of_head? hy)))
    obtain ⟨e', he', -⟩ := hrel₁.hashv hey
    exact ⟨e', he'⟩
  have hlinks : m₂.hhLinks =
      setPrev (setNext m.hhLinks xs.getLast? ys.head?) ys.head? xs.getLast? := by
    rw [← Elements.hhLinks_assigned_hhNext]
    exact Elements.hhLinks_assigned_hhPrev ..
  have hdel : hashDelInBkt m bucket x = some (m₂, { bucket with
      count := bucket.count - 1
      hhHead := if bucket.hhHead = some x then ys.head? else bucket.hhHead }) := by
    rw [hashDelInBkt, he]
    simp only [Option.bind_eq_bind, Option.bind_some, hprev, hnext, hassign₁, hassign₂]
  refine ⟨bucket, m₂, _, hbucket, hdel, ⟨?_, fun b hb => ?_⟩, hrel⟩
  · rw [List.length_set, h.length]
  by_cases hbe : hashToBkt e.hashv num = b
  · subst hbe
    have hnotin : x ∉ xs ++ ys := by
      have hmiddle := List.nodup_middle.1 hchain.nodup
      exact (List.nodup_cons.1 hmiddle).1
    refine ⟨_, xs ++ ys, List.getElem?_set_self (by rwa [h.length]), ⟨?_, ?_, ?_, ?_⟩, fun y => ?_⟩
    · rw [hchain.head]
      cases xs with
      | nil => exact if_pos rfl
      | cons a xs =>
        refine if_neg fun heq => hnotin ?_
        rw [Option.some.inj heq.symm]
        exact List.mem_cons_self
    · rw [hchain.count, List.length_append, List.length_cons, List.length_append]
      rfl
    · exact (List.nodup_cons.1 (List.nodup_middle.1 hchain.nodup)).2
    · rw [hlinks]
      exact hchain.linked.remove hchain.nodup
    · rw [hrel.bktOf, Set.mem_sdiff, Set.mem_singleton_iff, and_right_comm, ← hmem, List.mem_append,
        List.mem_append, List.mem_cons]
      rw [List.mem_append, not_or] at hnotin
      constructor
      · rintro (hy | hy)
        · exact ⟨.inl hy, ne_of_mem_of_not_mem hy hnotin.1⟩
        · exact ⟨.inr (.inr hy), ne_of_mem_of_not_mem hy hnotin.2⟩
      · rintro ⟨hy | rfl | hy, hne⟩
        · exact .inl hy
        · exact absurd rfl hne
        · exact .inr hy
  · -- the chains of the other buckets are as before
    obtain ⟨bucket', xs', hbucket', hchain', hmem'⟩ := h.chain b hb
    have hother : ∀ y ∈ xs', y ∉ xs ++ x :: ys := by
      intro y hy hy'
      exact hbe (Option.some.inj (((hmem y).1 hy').2.symm.trans ((hmem' y).1 hy).2))
    refine ⟨bucket', xs', ?_, ⟨hchain'.head, hchain'.count, hchain'.nodup, ?_⟩, fun y => ?_⟩
    · rw [List.getElem?_set_ne hbe, hbucket']
    · refine hchain'.linked.congr fun y hy => ?_
      have hhead : some y ≠ ys.head? := fun heq => hother y hy
        (List.mem_append_right xs (List.mem_cons_of_mem x (List.mem_of_head? heq.symm)))
      have hlast : some y ≠ xs.getLast? := fun heq => hother y hy
        (List.mem_append_left _ (List.mem_of_getLast? heq.symm))
      rw [hlinks, setPrev_of_ne hhead, setNext_of_ne hlast]
    · rw [hmem', hrel.bktOf, Set.mem_sdiff, Set.mem_singleton_iff, and_right_comm]
      refine ⟨fun hy => ⟨hy, ?_⟩, And.left⟩
      rintro rfl
      exact hbe (Option.some.inj (hbktx.symm.trans hy.2))

/-! ## Expanding -/

section

variable {tbl : UtHashTable ι} {moved : Set ι} {ex : Expansion ι α}

/-- One element is moved. -/
theorem Expansion.move_spec (hideal : 0 < tbl.idealChainMaxlen) (hnum : 0 < tbl.numBuckets)
    (hlt : tbl.numBuckets * 2 < 2 ^ 32) (h : Buckets ex.m (tbl.numBuckets * 2) ex.newBuckets moved) {x : ι} (hx : x ∉ moved)
    {e : Element ι α} (he : ex.m x = some e) :
    ∃ ex', ex.move tbl x = some (e.hhNext, ex') ∧
      Buckets ex'.m (tbl.numBuckets * 2) ex'.newBuckets (insert x moved) ∧
      Relinked ex.m ex'.m (insert x moved) := by
  obtain ⟨bucket, m', hbucket, hpush, hbuckets, hrel⟩ := h.push hx he (by omega) hlt.le
  rw [Expansion.move, he, u32, Nat.mod_eq_of_lt hlt]
  simp only [Option.bind_eq_bind, Option.bind_some, hbucket, hpush]
  split_ifs with hlong hzero
  · omega
  · exact ⟨_, rfl, hbuckets _, hrel⟩
  · exact ⟨_, rfl, hbuckets _, hrel⟩

variable (tbl) in
/-- A chain is moved. -/
theorem Expansion.moveChain_spec (hideal : 0 < tbl.idealChainMaxlen) (hnum : 0 < tbl.numBuckets)
    (hlt : tbl.numBuckets * 2 < 2 ^ 32) :
    ∀ {xs : List ι} {before : Option ι} {moved : Set ι} {ex : Expansion ι α},
    Buckets ex.m (tbl.numBuckets * 2) ex.newBuckets moved → Chain ex.m.hhLinks before xs none →
    xs.Nodup → (∀ x ∈ xs, x ∉ moved) →
    ∃ ex', ex.moveChain tbl xs.length xs.head? = some ex' ∧
      Buckets ex'.m (tbl.numBuckets * 2) ex'.newBuckets (moved ∪ {x | x ∈ xs}) ∧
      Relinked ex.m ex'.m (moved ∪ {x | x ∈ xs})
  | [], _, moved, ex, h, _, _, _ => by
    have hmoved : moved ∪ {x | x ∈ ([] : List ι)} = moved := by
      ext y
      exact or_iff_left List.not_mem_nil
    rw [hmoved]
    exact ⟨ex, rfl, h, .refl _⟩
  | x :: xs, _, moved, ex, h, hchain, hnodup, hnew => by
    obtain ⟨hx, hxs⟩ := hchain
    obtain ⟨hnotin, hnodup⟩ := List.nodup_cons.1 hnodup
    rw [List.forall_mem_cons] at hnew
    obtain ⟨e, he, hlink⟩ := Option.map_eq_some_iff.1 hx
    have hnext : e.hhNext = xs.head? := by
      rw [← Option.or_none (o := xs.head?)]
      exact congrArg Link.next hlink
    obtain ⟨ex₁, hmove, h₁, hrel₁⟩ := Expansion.move_spec hideal hnum hlt h hnew.1 he
    -- the rest of the chain is as before
    have hrest : ∀ y ∈ xs, y ∉ insert x moved := fun y hy hmem =>
      hmem.elim (fun heq => hnotin (heq ▸ hy)) (hnew.2 y hy)
    have hchain₁ : Chain ex₁.m.hhLinks (some x) xs none := hxs.congr fun y hy => by
      rw [Elements.hhLinks, hrel₁.same y (hrest y hy), Elements.hhLinks]
    obtain ⟨ex', hmoves, h', hrel'⟩ := moveChain_spec hideal hnum hlt h₁ hchain₁ hnodup hrest
    have hmoved : insert x moved ∪ {y | y ∈ xs} = moved ∪ {y | y ∈ x :: xs} := by
      ext y
      simp only [Set.mem_union, Set.mem_insert_iff, Set.mem_ofPred_eq, List.mem_cons]
      tauto
    rw [hmoved] at h' hrel'
    refine ⟨ex', ?_, h', hrel₁.trans hrel' ?_⟩
    · rw [List.length_cons, List.head?_cons, Expansion.moveChain, hmove]
      simp only [Option.bind_eq_bind, Option.bind_some]
      rw [hnext]
      exact hmoves
    · rw [← hmoved]
      exact Set.subset_union_left

/-- The elements of the first buckets. -/
def firstBuckets (m : Elements ι α) (num : ℕ) (items : Set ι) (i : ℕ) : Set ι :=
  {x | x ∈ items ∧ ∃ b < i, m.bktOf num x = some b}

omit [DecidableEq ι] in
/-- The ideal length of a chain is positive. -/
theorem idealLength_pos (hitems : 0 < tbl.numItems) (hnum : tbl.numBuckets = 2 ^ tbl.log2NumBuckets)
    (hlt : tbl.numBuckets * 2 < 2 ^ 32) : 0 < tbl.idealLength := by
  have hpos : 0 < tbl.numBuckets := hnum ▸ Nat.two_pow_pos _
  rw [UtHashTable.idealLength, u32, Nat.mod_eq_of_lt hlt, predU32_eq (by omega) hlt.le, hnum,
    ← Nat.pow_succ, Nat.and_two_pow_sub_one_eq_mod, Nat.shiftRight_eq_div_pow]
  split_ifs with hmod
  · exact Nat.div_pos (Nat.le_of_dvd hitems (Nat.dvd_of_mod_eq_zero hmod)) (Nat.two_pow_pos _)
  · exact Nat.succ_pos _

variable (tbl) in
/-- **All elements are moved to twice as many buckets.** -/
theorem Expansion.moveAll_spec (hideal : 0 < tbl.idealChainMaxlen) (hnum : 0 < tbl.numBuckets)
    (hlt : tbl.numBuckets * 2 < 2 ^ 32) (h : Buckets m tbl.numBuckets tbl.buckets items)
    (hall : ∀ x ∈ items, ∃ e, m x = some e) :
    ∃ ex, Expansion.moveAll tbl ⟨m, List.replicate (tbl.numBuckets * 2) .zero, 0⟩ = some ex ∧
      Buckets ex.m (tbl.numBuckets * 2) ex.newBuckets items ∧ Relinked m ex.m items := by
  -- after some buckets, their elements are in the new ones, and the others as before
  have hloop : ∀ i ≤ tbl.numBuckets, ∃ ex : Expansion ι α,
      (List.range i).foldlM (fun ex i => do
        let bucket ← tbl.buckets[i]?
        ex.moveChain tbl bucket.count bucket.hhHead)
        (⟨m, List.replicate (tbl.numBuckets * 2) .zero, 0⟩ : Expansion ι α) = some ex ∧
      Buckets ex.m (tbl.numBuckets * 2) ex.newBuckets (firstBuckets m tbl.numBuckets items i) ∧
      Relinked m ex.m (firstBuckets m tbl.numBuckets items i) := by
    intro i
    induction i with
    | zero =>
      intro _
      have hnone : firstBuckets m tbl.numBuckets items 0 = ∅ := by
        ext y
        exact ⟨fun ⟨_, b, hb, _⟩ => absurd hb (Nat.not_lt_zero b), False.elim⟩
      rw [hnone]
      exact ⟨_, rfl, buckets_zero m _, .refl m⟩
    | succ i ih =>
      intro hi
      obtain ⟨ex, hex, hbuckets, hrel⟩ := ih (by omega)
      obtain ⟨bucket, xs, hbucket, hchain, hmem⟩ := h.chain i (by omega)
      have hold : ∀ x ∈ xs, x ∉ firstBuckets m tbl.numBuckets items i := by
        rintro x hx ⟨-, b, hb, hbkt⟩
        have := Option.some.inj (hbkt.symm.trans ((hmem x).1 hx).2)
        omega
      have hchain' : Chain ex.m.hhLinks none xs none := hchain.linked.congr fun y hy => by
        rw [Elements.hhLinks, hrel.same y (hold y hy), Elements.hhLinks]
      obtain ⟨ex', hmoves, hbuckets', hrel'⟩ :=
        Expansion.moveChain_spec tbl hideal hnum hlt hbuckets hchain' hchain.nodup hold
      have hfirst : firstBuckets m tbl.numBuckets items i ∪ {x | x ∈ xs} =
          firstBuckets m tbl.numBuckets items (i + 1) := by
        ext y
        rw [Set.mem_union, Set.mem_ofPred_eq, hmem]
        constructor
        · rintro (⟨hy, b, hb, hbkt⟩ | ⟨hy, hbkt⟩)
          · exact ⟨hy, b, by omega, hbkt⟩
          · exact ⟨hy, i, Nat.lt_succ_self i, hbkt⟩
        · rintro ⟨hy, b, hb, hbkt⟩
          rcases Nat.lt_succ_iff_lt_or_eq.1 hb with hlt | rfl
          · exact .inl ⟨hy, b, hlt, hbkt⟩
          · exact .inr ⟨hy, hbkt⟩
      rw [hfirst] at hbuckets' hrel'
      refine ⟨ex', ?_, hbuckets', hrel.trans hrel' ?_⟩
      · rw [List.range_succ, List.foldlM_append, hex]
        simp only [Option.bind_eq_bind, Option.bind_some, List.foldlM_cons, List.foldlM_nil]
        rw [hbucket, Option.bind_some, hchain.count, hchain.head, hmoves]
        rfl
      · rw [← hfirst]
        exact Set.subset_union_left
  obtain ⟨ex, hex, hbuckets, hrel⟩ := hloop tbl.numBuckets le_rfl
  have hfirst : firstBuckets m tbl.numBuckets items tbl.numBuckets = items := by
    ext y
    refine ⟨And.left, fun hy => ?_⟩
    obtain ⟨e, he⟩ := hall y hy
    exact ⟨hy, _, hashToBkt_lt hnum (by omega) e.hashv, by
      rw [Elements.bktOf, he, Option.map_some]⟩
  rw [hfirst] at hbuckets hrel
  exact ⟨ex, hex, hbuckets, hrel⟩

/-- Where there are no new buckets, no chain can be moved. -/
theorem Expansion.moveChain_nil (fuel : ℕ) (x : ι) (m : Elements ι α) :
    Expansion.moveChain tbl fuel (some x) ⟨m, [], 0⟩ = none := by
  cases fuel with
  | zero => rfl
  | succ fuel =>
    rw [Expansion.moveChain, Expansion.move]
    cases hm : m x with
    | none => simp only [hm, Option.bind_eq_bind, Option.bind_none]
    | some e => simp only [hm, Option.bind_eq_bind, Option.bind_some, List.getElem?_nil,
        Option.bind_none]

variable (tbl) in
theorem Expansion.moveAll_nil (h : Buckets m tbl.numBuckets tbl.buckets items) {x : ι}
    (hx : x ∈ items) {e : Element ι α} (he : m x = some e) (hnum : 0 < tbl.numBuckets)
    (hle : tbl.numBuckets ≤ 2 ^ 32) : Expansion.moveAll tbl ⟨m, [], 0⟩ = none := by
  rw [Expansion.moveAll, Option.eq_none_iff_forall_ne_some]
  intro ex hrun
  -- the bucket of the element
  have hlt := hashToBkt_lt hnum hle e.hashv
  obtain ⟨bucket, xs, hbucket, hchain, hmem⟩ := h.chain _ hlt
  obtain ⟨y, hy⟩ : ∃ y, xs.head? = some y := ⟨_, List.head?_eq_some_head
    (List.ne_nil_of_mem ((hmem x).2 ⟨hx, by rw [Elements.bktOf, he, Option.map_some]⟩))⟩
  obtain ⟨before, after, hsplit⟩ := List.append_of_mem (List.mem_range.2 hlt)
  rw [hsplit, List.foldlM_append] at hrun
  obtain ⟨ex₁, hbefore, hrun⟩ := Option.bind_eq_some_iff.1 hrun
  have hsame : ex₁ = ⟨m, [], 0⟩ := by
    refine Run.inv_of_run (I := fun ex => ex = ⟨m, [], 0⟩) (C := fun _ => True) ?_ rfl
      (fun _ _ => trivial) hbefore
    rintro _ i ex' rfl - hstep
    obtain ⟨bucket', -, hmoves⟩ := Option.bind_eq_some_iff.1 hstep
    cases hhead : bucket'.hhHead with
    | none =>
      rw [hhead, Expansion.moveChain] at hmoves
      exact (Option.some.inj hmoves).symm
    | some z =>
      rw [hhead, Expansion.moveChain_nil] at hmoves
      cases hmoves
  rw [hsame, List.foldlM_cons, hbucket] at hrun
  simp only [Option.bind_eq_bind, Option.bind_some, hchain.head, hy, Expansion.moveChain_nil,
    Option.bind_none, reduceCtorEq] at hrun

variable {uthashMalloc : UthashMalloc ι α}

/-- **The number of buckets is doubled.** -/
theorem Buckets.expand (h : Buckets m tbl.numBuckets tbl.buckets items)
    (hnum : tbl.numBuckets = 2 ^ tbl.log2NumBuckets) (hlog : tbl.log2NumBuckets < 31)
    (hitems : 0 < tbl.numItems) (hall : ∀ x ∈ items, ∃ e, m x = some e)
    (hgranted : uthashMalloc m (2 ^ (tbl.log2NumBuckets + 1) * sizeofUtHashBucket) = true) :
    ∃ m' tbl', hashExpandBuckets uthashMalloc m tbl = some (.ok (m', tbl')) ∧
      Buckets m' tbl'.numBuckets tbl'.buckets items ∧ Relinked m m' items ∧
      tbl'.numBuckets = 2 ^ tbl'.log2NumBuckets ∧
      tbl'.log2NumBuckets = tbl.log2NumBuckets + 1 ∧ tbl'.tail = tbl.tail ∧
      tbl'.numItems = tbl.numItems := by
  have hpos : 0 < tbl.numBuckets := hnum ▸ Nat.two_pow_pos _
  have hpow : tbl.numBuckets * 2 = 2 ^ (tbl.log2NumBuckets + 1) := by rw [hnum, ← Nat.pow_succ]
  have hlt : tbl.numBuckets * 2 < 2 ^ 32 := by
    rw [hpow]
    exact Nat.pow_lt_pow_right (by norm_num) (by omega)
  have hu32 : u32 (2 * tbl.numBuckets) = tbl.numBuckets * 2 := by
    rw [u32, Nat.mul_comm, Nat.mod_eq_of_lt hlt]
  obtain ⟨ex, hex, hbuckets, hrel⟩ := Expansion.moveAll_spec
    { tbl with idealChainMaxlen := tbl.idealLength } (idealLength_pos hitems hnum hlt) hpos hlt h hall
  rw [← hpow] at hgranted
  rw [hashExpandBuckets]
  simp only [hu32, hgranted, Bool.not_true, Bool.false_eq_true, if_false, hex, Option.bind_eq_bind,
    Option.bind_some]
  have hnum' : u32 (tbl.numBuckets * 2) = tbl.numBuckets * 2 := Nat.mod_eq_of_lt hlt
  exact ⟨_, _, rfl, hnum'.symm ▸ hbuckets, hrel, hnum'.trans hpow, rfl, rfl, rfl⟩

/-- **It wraps around** for 2^31 buckets, and there are none. -/
theorem Buckets.expand_wraps (h : Buckets m tbl.numBuckets tbl.buckets items)
    (hnum : tbl.numBuckets = 2 ^ 31) {x : ι} (hx : x ∈ items) {e : Element ι α}
    (he : m x = some e) (hgranted : uthashMalloc m 0 = true) :
    hashExpandBuckets uthashMalloc m tbl = none := by
  have hzero : u32 (2 * tbl.numBuckets) = 0 := by
    rw [hnum]
    rfl
  rw [hashExpandBuckets]
  simp only [hzero, Nat.zero_mul, hgranted, Bool.not_true, Bool.false_eq_true, if_false,
    List.replicate_zero, Option.bind_eq_bind]
  rw [Expansion.moveAll_nil { tbl with idealChainMaxlen := tbl.idealLength } h hx he
    (hnum ▸ Nat.two_pow_pos _) (hnum ▸ Nat.pow_le_pow_right (by norm_num) (by norm_num))]
  rfl

end

end Honas
