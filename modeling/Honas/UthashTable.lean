/-
  The operations of the hash table.

  `HashHolds` says that a table has some items: its elements are linked in their order, and
  each is in the bucket of its key.  Searching, adding and deleting never follow a pointer
  that is `NULL` or dangling, and
  * `hashFind_holds`: a search finds an item with the key, if there is one;
  * `hashAdd_holds`: an element that is added is the last item, unless the program is ended
    because memory for the buckets is refused, or 2^31 buckets have been granted;
  * `hashDelete_holds`: an element that is deleted is no item any more, and the order of
    the others is as before.
-/
import Honas.UthashBuckets

namespace Honas

open Bits LinkedChain

/-- What a table has to know of an element. -/
structure Item (ι α : Type) where
  pointer : ι
  key : List Byte
  value : α

variable {ι α : Type} (hashFcn : List Byte → BitVec 32)

/-- An element has the data of an item, and the hash value of its key. -/
def Item.In (item : Item ι α) (m : Elements ι α) : Prop :=
  (m item.pointer).map Element.data = some (item.key, hashFcn item.key, item.value)

/-- The pointers of some items. -/
def pointers (items : List (Item ι α)) : List ι := items.map Item.pointer

/-- A table that is not empty has some items. -/
structure TableHolds (m : Elements ι α) (h : UtHash ι) (items : List (Item ι α)) : Prop where
  nodup : (pointers items).Nodup
  linked : Chain m.links none (pointers items) none
  held : ∀ item ∈ items, item.In hashFcn m
  head : (pointers items).head? = some h.head
  tail : (pointers items).getLast? = some h.tbl.tail
  numItems : h.tbl.numItems = items.length
  numBuckets : h.tbl.numBuckets = 2 ^ h.tbl.log2NumBuckets
  log2NumBuckets_lt : h.tbl.log2NumBuckets < 32
  buckets : Buckets m h.tbl.numBuckets h.tbl.buckets {x | x ∈ pointers items}

theorem TableHolds.numBuckets_pos {hashFcn : List Byte → BitVec 32} {m : Elements ι α}
    {h : UtHash ι} {items : List (Item ι α)} (ht : TableHolds hashFcn m h items) :
    0 < h.tbl.numBuckets := ht.numBuckets ▸ Nat.two_pow_pos _

theorem TableHolds.numBuckets_le {hashFcn : List Byte → BitVec 32} {m : Elements ι α}
    {h : UtHash ι} {items : List (Item ι α)} (ht : TableHolds hashFcn m h items) :
    h.tbl.numBuckets ≤ 2 ^ 32 :=
  ht.numBuckets ▸ Nat.pow_le_pow_right (by norm_num) ht.log2NumBuckets_lt.le

/-- A table has some items; the empty one is `NULL`. -/
inductive HashHolds (m : Elements ι α) : Option (UtHash ι) → List (Item ι α) → Prop
  | empty : HashHolds m none []
  | table {h : UtHash ι} {items : List (Item ι α)} (htable : TableHolds hashFcn m h items) :
      HashHolds m (some h) items

variable {hashFcn} {m m' : Elements ι α} {hash : Option (UtHash ι)} {items : List (Item ι α)}

theorem Item.In.element {item : Item ι α} (h : item.In hashFcn m) :
    ∃ e, m item.pointer = some e ∧ e.key = item.key ∧ e.hashv = hashFcn item.key ∧
      e.value = item.value := by
  obtain ⟨e, he, hdata⟩ := Option.map_eq_some_iff.1 h
  obtain ⟨hkey, hrest⟩ := Prod.mk.inj hdata
  obtain ⟨hhashv, hvalue⟩ := Prod.mk.inj hrest
  exact ⟨e, he, hkey, hhashv, hvalue⟩

theorem Item.In.congr {item : Item ι α} (h : item.In hashFcn m)
    (hdata : (m' item.pointer).map Element.data = (m item.pointer).map Element.data) :
    item.In hashFcn m' := hdata.trans h

theorem HashHolds.nodup (h : HashHolds hashFcn m hash items) : (pointers items).Nodup := by
  cases h with
  | empty => exact List.nodup_nil
  | table htable => exact htable.nodup

theorem HashHolds.held (h : HashHolds hashFcn m hash items) : ∀ item ∈ items, item.In hashFcn m := by
  cases h with
  | empty => exact List.forall_mem_nil _
  | table htable => exact htable.held

/-- The elements are allocated. -/
theorem HashHolds.allocated (h : HashHolds hashFcn m hash items) {x : ι} (hx : x ∈ pointers items) :
    ∃ e, m x = some e := by
  obtain ⟨item, hitem, rfl⟩ := List.mem_map.1 hx
  obtain ⟨e, he, -⟩ := (h.held item hitem).element
  exact ⟨e, he⟩

/-- Other elements do not matter. -/
theorem HashHolds.congr (h : HashHolds hashFcn m hash items) (hsame : ∀ x ∈ pointers items, m' x = m x) :
    HashHolds hashFcn m' hash items := by
  cases h with
  | empty => exact .empty
  | table htable =>
    obtain ⟨hnodup, hlinked, hheld, hhead, htail, hnum, hbkts, hlog, hbuckets⟩ := htable
    refine .table ⟨hnodup, hlinked.congr fun x hx => ?_, fun item hitem => ?_, hhead, htail, hnum,
      hbkts, hlog, hbuckets.congr (fun x hx => ?_) fun x hx => ?_⟩
    · rw [Elements.links, hsame x hx, Elements.links]
    · exact (hheld item hitem).congr (by rw [hsame _ (List.mem_map_of_mem hitem)])
    · rw [Elements.hhLinks, hsame x hx, Elements.hhLinks]
    · rw [Elements.bktOf, hsame x hx, Elements.bktOf]

/-! ## Finding -/

/-- **A search finds an item with the key**, if there is one. -/
theorem hashFind_holds (h : HashHolds hashFcn m hash items) (key : List Byte) :
    ∃ out, hashFind hashFcn m hash key = some out ∧
      (∀ x, out = some x → ∃ item ∈ items, item.pointer = x ∧ item.key = key) ∧
      (out = none → ∀ item ∈ items, item.key ≠ key) := by
  cases h with
  | empty => exact ⟨none, rfl, nofun, fun _ => List.forall_mem_nil _⟩
  | @table h items htable =>
    obtain ⟨bucket, xs, hbucket, hchain, hmem⟩ := htable.buckets.chain _
      (hashToBkt_lt htable.numBuckets_pos htable.numBuckets_le (hashFcn key))
    refine ⟨xs.find? fun x => m.keyOf x = some key, ?_, fun x hx => ?_, fun hnone item hitem hkey => ?_⟩
    · rw [hashFind, hbucket]
      simp only [Option.bind_eq_bind, Option.bind_some]
      rw [hchain.count, hchain.head]
      exact hashFindInBkt_eq key hchain.linked
    · have hkey := List.find?_some hx
      obtain ⟨item, hitem, rfl⟩ := List.mem_map.1 ((hmem x).1 (List.mem_of_find?_eq_some hx)).1
      obtain ⟨e, he, hek, -⟩ := (htable.held item hitem).element
      refine ⟨item, hitem, rfl, ?_⟩
      rw [Elements.keyOf, he, Option.map_some] at hkey
      exact hek.symm.trans (Option.some.inj (of_decide_eq_true hkey))
    · obtain ⟨e, he, hek, hhashv, -⟩ := (htable.held item hitem).element
      have hxs : item.pointer ∈ xs := by
        rw [hmem]
        refine ⟨List.mem_map_of_mem hitem, ?_⟩
        rw [Elements.bktOf, he, Option.map_some, hhashv, hkey]
      refine List.find?_eq_none.1 hnone _ hxs (decide_eq_true ?_)
      rw [Elements.keyOf, he, Option.map_some, hek, hkey]

/-- If all keys differ, it finds the item. -/
theorem hashFind_eq (h : HashHolds hashFcn m hash items) (hkeys : (items.map Item.key).Nodup)
    (key : List Byte) :
    hashFind hashFcn m hash key = some ((items.find? (·.key = key)).map Item.pointer) := by
  obtain ⟨out, hfind, hsome, hnone⟩ := hashFind_holds h key
  rw [hfind]
  cases out with
  | none =>
    rw [List.find?_eq_none.2 fun item hitem => by
      simpa using hnone rfl item hitem]
    rfl
  | some x =>
    obtain ⟨item, hitem, rfl, hkey⟩ := hsome x rfl
    obtain ⟨found, hfound⟩ := Option.isSome_iff_exists.1
      (List.find?_isSome.2 ⟨item, hitem, decide_eq_true hkey⟩ :
        (items.find? (·.key = key)).isSome = true)
    have hfkey : found.key = key := by simpa using List.find?_some hfound
    obtain rfl := List.inj_on_of_nodup_map hkeys (List.mem_of_find?_eq_some hfound) hitem
      (hfkey.trans hkey.symm)
    rw [hfound]
    rfl

/-! ## Adding -/

theorem pointers_append (before after : List (Item ι α)) :
    pointers (before ++ after) = pointers before ++ pointers after := List.map_append

variable [DecidableEq ι] {uthashMalloc : UthashMalloc ι α}

/-- The buckets of a table have been granted, if there are more than at first. -/
def Granted (uthashMalloc : UthashMalloc ι α) (h : UtHash ι) : Prop :=
  hashInitialNumBucketsLog2 < h.tbl.log2NumBuckets →
    ∃ m, uthashMalloc m (2 ^ h.tbl.log2NumBuckets * sizeofUtHashBucket) = true

omit [DecidableEq ι] in
/-- A table is made, or the program ends. -/
theorem hashMakeTable_spec (uthashMalloc : UthashMalloc ι α) (m : Elements ι α) (head : ι) :
    (∃ size, hashMakeTable uthashMalloc m head = .error size ∧ uthashMalloc m size = false) ∨
      ∃ tbl, hashMakeTable uthashMalloc m head = .ok ⟨head, tbl⟩ ∧ tbl.tail = head ∧
        tbl.numItems = 0 ∧ tbl.numBuckets = 2 ^ 5 ∧ tbl.log2NumBuckets = 5 ∧
        tbl.buckets = List.replicate (2 ^ 5) .zero := by
  rw [hashMakeTable]
  cases htable : uthashMalloc m sizeofUtHashTable with
  | false => exact .inl ⟨_, rfl, htable⟩
  | true =>
    cases hbuckets : uthashMalloc m (hashInitialNumBuckets * sizeofUtHashBucket) with
    | false => exact .inl ⟨_, rfl, hbuckets⟩
    | true => exact .inr ⟨_, rfl, rfl, rfl, rfl, rfl, rfl⟩

/-- A new element is the last one in the order of the additions. -/
theorem hashAppend_holds (h : HashHolds hashFcn m hash items)
    (hgranted : ∀ t, hash = some t → Granted uthashMalloc t) {x : ι} (hx : x ∉ pointers items)
    {e : Element ι α} (he : m x = some e) :
    (∃ size m', hashAppend uthashMalloc m hash x = some (.error size) ∧
      uthashMalloc m' size = false) ∨
    ∃ m' h', hashAppend uthashMalloc m hash x = some (.ok (m', h')) ∧ Granted uthashMalloc h' ∧
      Chain m'.links none (pointers items ++ [x]) none ∧
      (pointers items ++ [x]).head? = some h'.head ∧ h'.tbl.tail = x ∧
      h'.tbl.numItems = items.length ∧ h'.tbl.numBuckets = 2 ^ h'.tbl.log2NumBuckets ∧
      h'.tbl.log2NumBuckets < 32 ∧ Buckets m' h'.tbl.numBuckets h'.tbl.buckets {y | y ∈ pointers items} ∧
      Reordered m m' (insert x {y | y ∈ pointers items}) := by
  have hself : ∀ y, some x = some y → y ∈ insert x {y | y ∈ pointers items} := by
    rintro y ⟨⟩
    exact Set.mem_insert x _
  set m₁ := m.assigned (some x) fun e => { e with next := none }
  have hassign₁ : m.assign (some x) (fun e => { e with next := none }) = some m₁ :=
    Elements.assign_eq (by rintro y ⟨⟩; exact ⟨e, he⟩) _
  have hsame₁ : ∀ y, y ≠ x → m₁ y = m y := fun y hy =>
    Elements.assigned_of_ne (fun heq => hy (Option.some.inj heq)) _
  have he₁ : m₁ x = some { e with next := none } := Elements.assigned_self he _
  have hr₁ : Reordered m m₁ (insert x {y | y ∈ pointers items}) :=
    reordered_assigned (fun _ => rfl) (fun _ => rfl) hself
  rw [hashAppend, hassign₁]
  cases h with
  | empty =>
    set m₂ := m₁.assigned (some x) fun e => { e with prev := none }
    have hassign₂ : m₁.assign (some x) (fun e => { e with prev := none }) = some m₂ :=
      Elements.assign_eq (by rintro y ⟨⟩; exact ⟨_, he₁⟩) _
    have he₂ : m₂ x = some { e with next := none, prev := none } := Elements.assigned_self he₁ _
    have hr₂ : Reordered m₁ m₂ (insert x {y | y ∈ pointers []}) :=
      reordered_assigned (fun _ => rfl) (fun _ => rfl) hself
    simp only [Option.bind_eq_bind, Option.bind_some, hassign₂]
    rcases hashMakeTable_spec uthashMalloc m₂ x with
      ⟨size, hmake, hrefused⟩ | ⟨tbl, hmake, htail, hnum, hbkts, hlog, hbuckets⟩
    · rw [hmake]
      exact .inl ⟨size, m₂, rfl, hrefused⟩
    rw [hmake]
    refine .inr ⟨m₂, ⟨x, tbl⟩, rfl, fun hlt => ?_, ⟨?_, trivial⟩, rfl, htail, hnum, ?_, ?_, ?_,
      hr₁.trans hr₂⟩
    · exact absurd hlt (hlog ▸ lt_irrefl _)
    · rw [Elements.links, he₂]
      rfl
    · rw [hbkts, hlog]
    · rw [hlog]
      norm_num
    · have hnone : {y | y ∈ pointers ([] : List (Item ι α))} = ∅ := by
        ext y
        exact ⟨fun hy => absurd hy List.not_mem_nil, False.elim⟩
      rw [hnone, hbkts, hbuckets]
      exact buckets_zero m₂ _
  | @table h items htable =>
    have htail : h.tbl.tail ∈ pointers items := List.mem_of_getLast? htable.tail
    have hne : h.tbl.tail ≠ x := ne_of_mem_of_not_mem htail hx
    obtain ⟨et, het⟩ := (HashHolds.table htable).allocated htail
    set m₂ := m₁.assigned (some h.tbl.tail) fun e => { e with next := some x } with hm₂
    set m₃ := m₂.assigned (some x) fun e => { e with prev := some h.tbl.tail } with hm₃
    have hassign₂ : m₁.assign (some h.tbl.tail) (fun e => { e with next := some x }) = some m₂ :=
      Elements.assign_eq (by rintro y ⟨⟩; exact ⟨et, (hsame₁ _ hne).trans het⟩) _
    have he₂ : m₂ x = some { e with next := none } :=
      (Elements.assigned_of_ne (fun heq => hne (Option.some.inj heq).symm) _).trans he₁
    have hassign₃ : m₂.assign (some x) (fun e => { e with prev := some h.tbl.tail }) = some m₃ :=
      Elements.assign_eq (by rintro y ⟨⟩; exact ⟨_, he₂⟩) _
    have he₃ : m₃ x = some { e with next := none, prev := some h.tbl.tail } :=
      Elements.assigned_self he₂ _
    have hr₂ : Reordered m₁ m₂ (insert x {y | y ∈ pointers items}) :=
      reordered_assigned (fun _ => rfl) (fun _ => rfl) (by
        rintro y ⟨⟩
        exact Set.mem_insert_of_mem x htail)
    have hr₃ : Reordered m₂ m₃ (insert x {y | y ∈ pointers items}) :=
      reordered_assigned (fun _ => rfl) (fun _ => rfl) hself
    have hr := hr₁.trans (hr₂.trans hr₃)
    have hlinks : m₃.links = Function.update (setNext m.links (pointers items).getLast? (some x)) x
        (some ⟨(pointers items).getLast?, none⟩) := by
      funext y
      by_cases hy : y = x
      · subst hy
        rw [Function.update_self, Elements.links, he₃, Option.map_some, htable.tail]
      · have hlinks₂ := congrFun (Elements.links_assigned_next (m := m₁) (some h.tbl.tail) (some x)) y
        rw [Function.update_of_ne hy, Elements.links, hm₃,
          Elements.assigned_of_ne (fun heq => hy (Option.some.inj heq)), ← Elements.links, hm₂,
          hlinks₂, htable.tail, setNext, setNext, Elements.links, hsame₁ y hy, Elements.links]
    simp only [Option.bind_eq_bind, Option.bind_some, hassign₂, hassign₃]
    refine .inr ⟨m₃, _, rfl, hgranted h rfl, ?_, ?_, rfl, htable.numItems, htable.numBuckets,
      htable.log2NumBuckets_lt, htable.buckets.reordered hr, hr⟩
    · rw [hlinks]
      have hchain := htable.linked.concat htable.nodup hx
      rwa [Option.or_none] at hchain
    · rw [List.head?_append, htable.head]
      rfl

/-- What an expansion does: there are more buckets, or the program ends because memory is
    refused, or 2^31 buckets have been granted, which is too many. -/
inductive Expanded (uthashMalloc : UthashMalloc ι α) (m : Elements ι α) (tbl : UtHashTable ι)
    (xs : Set ι) : Option (Except ℕ (Elements ι α × UtHashTable ι)) → Prop
  | expanded {m' : Elements ι α} {tbl' : UtHashTable ι} (relinked : Relinked m m' xs)
      (buckets : Buckets m' tbl'.numBuckets tbl'.buckets xs)
      (numBuckets : tbl'.numBuckets = 2 ^ tbl'.log2NumBuckets)
      (log2NumBuckets_lt : tbl'.log2NumBuckets < 32) (tail : tbl'.tail = tbl.tail)
      (numItems : tbl'.numItems = tbl.numItems)
      (granted : ∃ m, uthashMalloc m (2 ^ tbl'.log2NumBuckets * sizeofUtHashBucket) = true) :
      Expanded uthashMalloc m tbl xs (some (.ok (m', tbl')))
  | fatal {size : ℕ} {m' : Elements ι α} (refused : uthashMalloc m' size = false) :
      Expanded uthashMalloc m tbl xs (some (.error size))
  | wraps {m' : Elements ι α} (granted : uthashMalloc m' (2 ^ 31 * sizeofUtHashBucket) = true) :
      Expanded uthashMalloc m tbl xs none

theorem hashExpandBuckets_spec {tbl : UtHashTable ι} {xs : Set ι}
    (h : Buckets m tbl.numBuckets tbl.buckets xs)
    (hbkts : tbl.numBuckets = 2 ^ tbl.log2NumBuckets) (hlog : tbl.log2NumBuckets < 32)
    (hitems : 0 < tbl.numItems) (hall : ∀ x ∈ xs, ∃ e, m x = some e) (hne : xs.Nonempty)
    (hgranted : hashInitialNumBucketsLog2 < tbl.log2NumBuckets →
      ∃ m, uthashMalloc m (2 ^ tbl.log2NumBuckets * sizeofUtHashBucket) = true) :
    Expanded uthashMalloc m tbl xs (hashExpandBuckets uthashMalloc m tbl) := by
  cases hmalloc : uthashMalloc m (u32 (2 * tbl.numBuckets) * sizeofUtHashBucket) with
  | false =>
    rw [hashExpandBuckets]
    simp only [hmalloc, Bool.not_false, if_true]
    exact .fatal hmalloc
  | true =>
    by_cases hfull : tbl.log2NumBuckets = 31
    · -- no buckets are granted next
      have hnum31 : tbl.numBuckets = 2 ^ 31 := hbkts.trans (by rw [hfull])
      obtain ⟨x, hx⟩ := hne
      obtain ⟨e, he⟩ := hall x hx
      obtain ⟨m', hgranted'⟩ := hgranted (by rw [hfull]; decide)
      rw [h.expand_wraps hnum31 hx he (by rw [hnum31] at hmalloc; exact hmalloc)]
      exact .wraps (hfull ▸ hgranted')
    · have hsize : u32 (2 * tbl.numBuckets) = 2 ^ (tbl.log2NumBuckets + 1) := by
        rw [hbkts, Nat.mul_comm, ← Nat.pow_succ, u32,
          Nat.mod_eq_of_lt (Nat.pow_lt_pow_right (by norm_num) (by omega))]
      rw [hsize] at hmalloc
      obtain ⟨m', tbl', hexpand, hbuckets', hrel, hbkts', hlog', htail, hnum⟩ :=
        h.expand hbkts (by omega) hitems hall hmalloc
      rw [hexpand]
      exact .expanded hrel hbuckets' hbkts' (by omega) htail hnum ⟨m, by rwa [hlog']⟩

/-- What adding an element does: it is the last item, or the program ends because memory is
    refused, or 2^31 buckets have been granted, which is too many. -/
inductive Added (hashFcn : List Byte → BitVec 32) (uthashMalloc : UthashMalloc ι α)
    (m : Elements ι α) (items : List (Item ι α)) (x : ι) (e : Element ι α) :
    Option (Except ℕ (Elements ι α × UtHash ι)) → Prop
  | added {m' : Elements ι α} {h' : UtHash ι}
      (holds : HashHolds hashFcn m' (some h') (items ++ [⟨x, e.key, e.value⟩]))
      (granted : Granted uthashMalloc h') (same : ∀ y, y ∉ pointers items → y ≠ x → m' y = m y) :
      Added hashFcn uthashMalloc m items x e (some (.ok (m', h')))
  | fatal {size : ℕ} {m' : Elements ι α} (refused : uthashMalloc m' size = false) :
      Added hashFcn uthashMalloc m items x e (some (.error size))
  | wraps {m' : Elements ι α} (granted : uthashMalloc m' (2 ^ 31 * sizeofUtHashBucket) = true) :
      Added hashFcn uthashMalloc m items x e none

/-- **An element that is added is the last item.** -/
theorem hashAdd_holds (h : HashHolds hashFcn m hash items)
    (hgranted : ∀ t, hash = some t → Granted uthashMalloc t) {x : ι} (hx : x ∉ pointers items)
    {e : Element ι α} (he : m x = some e) :
    Added hashFcn uthashMalloc m items x e (hashAdd uthashMalloc hashFcn m hash x) := by
  rcases hashAppend_holds h hgranted hx he with ⟨size, m', happend, hrefused⟩ |
    ⟨m₁, h₁, happend, hgranted₁, hlinked, hhead, htail, hnum, hbkts, hlog, hbuckets, hr⟩
  · rw [hashAdd, happend]
    exact .fatal hrefused
  obtain ⟨e₁, he₁, hdata₁⟩ : ∃ e₁, m₁ x = some e₁ ∧ e₁.data = e.data := by
    have hdata := hr.data x
    rw [he, Option.map_some] at hdata
    exact Option.map_eq_some_iff.1 hdata
  have hkey₁ : e₁.key = e.key := congrArg Prod.fst hdata₁
  have hvalue₁ : e₁.value = e.value := congrArg (fun d => d.2.2) hdata₁
  set m₂ := m₁.assigned (some x) fun e => { e with hashv := hashFcn e₁.key }
  have hassign : m₁.assign (some x) (fun e => { e with hashv := hashFcn e₁.key }) = some m₂ :=
    Elements.assign_eq (by rintro y ⟨⟩; exact ⟨e₁, he₁⟩) _
  have hsame₂ : ∀ y, y ≠ x → m₂ y = m₁ y := fun y hy =>
    Elements.assigned_of_ne (fun heq => hy (Option.some.inj heq)) _
  have he₂ : m₂ x = some { e₁ with hashv := hashFcn e₁.key } := Elements.assigned_self he₁ _
  have hlinks₂ : m₂.links = m₁.links := Elements.links_assigned_hashv ..
  have hbuckets₂ : Buckets m₂ h₁.tbl.numBuckets h₁.tbl.buckets {y | y ∈ pointers items} := by
    refine hbuckets.congr (fun y hy => ?_) fun y hy => ?_
    · rw [Elements.hhLinks, hsame₂ y (ne_of_mem_of_not_mem hy hx), Elements.hhLinks]
    · rw [Elements.bktOf, hsame₂ y (ne_of_mem_of_not_mem hy hx), Elements.bktOf]
  obtain ⟨bucket, m₃, hbucket, hpush, hpushed, hrel⟩ :=
    hbuckets₂.push hx he₂ (hbkts ▸ Nat.two_pow_pos _)
      (hbkts ▸ Nat.pow_le_pow_right (by norm_num) hlog.le)
  have hpointers : pointers (items ++ [⟨x, e.key, e.value⟩]) = pointers items ++ [x] :=
    pointers_append ..
  have hset : insert x {y | y ∈ pointers items} = {y | y ∈ pointers items ++ [x]} := by
    ext y
    rw [Set.mem_insert_iff, Set.mem_ofPred_eq, Set.mem_ofPred_eq, List.mem_append,
      List.mem_singleton, or_comm]
  rw [hset] at hpushed hrel
  have hnodup : (pointers items ++ [x]).Nodup := by
    refine List.nodup_append.2 ⟨h.nodup, List.nodup_singleton x, fun y hy z hz => ?_⟩
    rw [List.mem_singleton.1 hz]
    exact ne_of_mem_of_not_mem hy hx
  -- the items are held whatever links in the chains change
  have hheld : ∀ {m' : Elements ι α}, Relinked m₂ m' {y | y ∈ pointers items ++ [x]} →
      ∀ item ∈ items ++ [⟨x, e.key, e.value⟩], item.In hashFcn m' := by
    intro m' hrel' item hitem
    rcases List.mem_append.1 hitem with hitem | hitem
    · refine (h.held item hitem).congr ((hrel'.data _).trans ?_)
      rw [hsame₂ _ (ne_of_mem_of_not_mem (List.mem_map_of_mem hitem) hx)]
      exact hr.data _
    · rw [List.mem_singleton.1 hitem, Item.In, hrel'.data, he₂]
      dsimp only
      rw [Option.map_some, Element.data, hkey₁, hvalue₁]
  have houtside : ∀ {m' : Elements ι α}, Relinked m₂ m' {y | y ∈ pointers items ++ [x]} →
      ∀ y, y ∉ pointers items → y ≠ x → m' y = m y := by
    intro m' hrel' y hy hyx
    rw [hrel'.same y fun hmem => (List.mem_append.1 hmem).elim hy
      fun hmem => hyx (List.mem_singleton.1 hmem), hsame₂ y hyx]
    exact hr.same y fun hmem => hmem.elim hyx hy
  set tbl : UtHashTable ι := { h₁.tbl with
    numItems := h₁.tbl.numItems + 1
    buckets := h₁.tbl.buckets.set (hashToBkt (hashFcn e₁.key) h₁.tbl.numBuckets)
      ⟨some x, bucket.count + 1, bucket.expandMult⟩ } with htbl
  have hadd : hashAdd uthashMalloc hashFcn m hash x = (if bucket.count + 1 ≥
      (bucket.expandMult + 1) * hashBktCapacityThresh ∧ h₁.tbl.noexpand = false then
      hashExpandBuckets uthashMalloc m₃ tbl else some (.ok (m₃, tbl))).map
        fun added => added.map fun r => (r.1, { h₁ with tbl := r.2 }) := by
    rw [hashAdd, happend]
    simp only [Option.bind_eq_bind, Option.bind_some]
    rw [hashAddKeyptr, he₁]
    simp only [Option.bind_eq_bind, Option.bind_some, hassign]
    rw [hashAddToBkt, hbucket]
    simp only [Option.bind_eq_bind, Option.bind_some, hpush]
    exact (Option.map_eq_bind ..).symm
  have hpushed₃ : Buckets m₃ tbl.numBuckets tbl.buckets {y | y ∈ pointers items ++ [x]} :=
    hpushed bucket.expandMult
  have hitems : tbl.numItems = (items ++ [(⟨x, e.key, e.value⟩ : Item ι α)]).length := by
    rw [List.length_append, List.length_singleton, ← hnum]
  -- a table with these buckets has the items
  have htable : ∀ {m' : Elements ι α} {tbl' : UtHashTable ι},
      Relinked m₂ m' {y | y ∈ pointers items ++ [x]} →
      Buckets m' tbl'.numBuckets tbl'.buckets {y | y ∈ pointers items ++ [x]} →
      tbl'.numBuckets = 2 ^ tbl'.log2NumBuckets → tbl'.log2NumBuckets < 32 →
      tbl'.tail = tbl.tail → tbl'.numItems = tbl.numItems →
      HashHolds hashFcn m' (some { h₁ with tbl := tbl' }) (items ++ [⟨x, e.key, e.value⟩]) := by
    intro m' tbl' hrel' hbuckets' hbkts' hlog' htail' hnum'
    refine .table ⟨?_, ?_, hheld hrel', ?_, ?_, hnum'.trans hitems, hbkts', hlog', ?_⟩
    · rwa [hpointers]
    · rw [hpointers, hrel'.links, hlinks₂]
      exact hlinked
    · rw [hpointers]
      exact hhead
    · rw [hpointers, List.getLast?_concat, htail']
      exact congrArg some htail.symm
    · rwa [hpointers]
  have hall : ∀ y ∈ {y | y ∈ pointers items ++ [x]}, ∃ e', m₃ y = some e' := by
    intro y hy
    rw [Set.mem_ofPred_eq, ← hpointers] at hy
    obtain ⟨item, hitem, rfl⟩ := List.mem_map.1 hy
    obtain ⟨e', he', -⟩ := (hheld hrel item hitem).element
    exact ⟨e', he'⟩
  rw [hadd]
  split_ifs with hlong
  · have hexpanded := hashExpandBuckets_spec hpushed₃ hbkts hlog (Nat.succ_pos _) hall
      ⟨x, List.mem_append_right _ (List.mem_singleton_self x)⟩ hgranted₁
    generalize hashExpandBuckets uthashMalloc m₃ tbl = out at hexpanded
    cases hexpanded with
    | expanded hrel₄ hbuckets₄ hbkts₄ hlog₄ htail₄ hnum₄ hgranted₄ =>
      have hrel' := hrel.trans hrel₄ le_rfl
      exact .added (htable hrel' hbuckets₄ hbkts₄ hlog₄ htail₄ hnum₄) (fun _ => hgranted₄)
        (houtside hrel')
    | fatal hrefused => exact .fatal hrefused
    | wraps hgranted' => exact .wraps hgranted'
  · exact .added (htable hrel hpushed₃ hbkts hlog rfl rfl) hgranted₁ (houtside hrel)

/-! ## Deleting -/

/-- **An element that is deleted is no item any more.** -/
theorem hashDelete_holds {before after : List (Item ι α)} {item : Item ι α}
    (h : HashHolds hashFcn m hash (before ++ item :: after)) :
    ∃ m' hash', hashDelete m hash item.pointer = some (m', hash') ∧
      HashHolds hashFcn m' hash' (before ++ after) ∧
      (∀ y, y ∉ pointers (before ++ item :: after) → m' y = m y) ∧
      ∃ e, m' item.pointer = some e := by
  obtain ⟨e, he, hkey, hhashv, hvalue⟩ := (h.held item (by simp)).element
  cases hash with
  | none =>
    generalize hitems : before ++ item :: after = items at h
    cases h
    exact absurd hitems (by simp)
  | some t =>
    cases h with
    | table htable =>
    set x := item.pointer with hx
    set ps := pointers before with hps
    set qs := pointers after with hqs
    have hpointers : pointers (before ++ item :: after) = ps ++ x :: qs := List.map_append
    have hrest : pointers (before ++ after) = ps ++ qs := List.map_append
    obtain ⟨hnodup, hlinked, hheld, hhead, htail, hnum, hbkts, hlog, hbuckets⟩ := htable
    rw [hpointers] at hnodup hlinked hhead htail hbuckets ⊢
    have hnodup' := List.nodup_cons.1 (List.nodup_middle.1 hnodup)
    obtain ⟨hprev, hnext⟩ : e.prev = ps.getLast? ∧ e.next = qs.head? := by
      obtain ⟨-, hlink, -⟩ := chain_append.1 hlinked
      rw [Elements.links, he, Option.map_some, Option.or_none, Option.or_none] at hlink
      obtain ⟨hprev, hnext⟩ := Link.mk.inj (Option.some.inj hlink)
      exact ⟨hprev, hnext⟩
    rw [hashDelete, he]
    simp only [Option.bind_eq_bind, Option.bind_some, hprev, hnext]
    by_cases honly : ps.getLast? = none ∧ qs.head? = none
    · -- the only element: the table is freed
      rw [if_pos honly]
      obtain ⟨hb, ha⟩ := honly
      have hbefore : before = [] := List.map_eq_nil_iff.1 (List.getLast?_eq_none_iff.1 hb)
      have hafter : after = [] := List.map_eq_nil_iff.1 (List.head?_eq_none_iff.1 ha)
      rw [hbefore, hafter]
      exact ⟨m, none, rfl, .empty, fun _ _ => rfl, e, he⟩
    · rw [if_neg honly]
      have hne : ps ++ qs ≠ [] := fun hnil => by
        obtain ⟨hp, hq⟩ := List.append_eq_nil_iff.1 hnil
        exact honly ⟨by rw [hp]; rfl, by rw [hq]; rfl⟩
      obtain ⟨head', hhead'⟩ : ∃ head', (ps ++ qs).head? = some head' :=
        ⟨_, List.head?_eq_some_head hne⟩
      obtain ⟨tail', htail'⟩ : ∃ tail', (ps ++ qs).getLast? = some tail' :=
        ⟨_, List.getLast?_eq_some_getLast hne⟩
      have hin : ∀ y ∈ ps ++ x :: qs, ∃ ey, m y = some ey := fun y hy => by
        obtain ⟨link, hlink⟩ := hlinked.isSome y hy
        obtain ⟨ey, hey, -⟩ := Option.map_eq_some_iff.1 hlink
        exact ⟨ey, hey⟩
      have hlast : ∀ y, ps.getLast? = some y → y ∈ ps ++ x :: qs := fun y hy =>
        List.mem_append_left _ (List.mem_of_getLast? hy)
      have hfirst : ∀ y, qs.head? = some y → y ∈ ps ++ x :: qs := fun y hy =>
        List.mem_append_right _ (List.mem_cons_of_mem x (List.mem_of_head? hy))
      set m₁ := m.assigned ps.getLast? fun p => { p with next := qs.head? }
      set m₂ := m₁.assigned qs.head? fun n => { n with prev := ps.getLast? }
      have hr₁ : Reordered m m₁ {y | y ∈ ps ++ x :: qs} :=
        reordered_assigned (fun _ => rfl) (fun _ => rfl) hlast
      have hr₂ : Reordered m₁ m₂ {y | y ∈ ps ++ x :: qs} :=
        reordered_assigned (fun _ => rfl) (fun _ => rfl) hfirst
      have hr := hr₁.trans hr₂
      have hassign₁ : m.assign ps.getLast? (fun p => { p with next := qs.head? }) = some m₁ :=
        Elements.assign_eq (fun y hy => hin y (hlast y hy)) _
      have hassign₂ : m₁.assign qs.head? (fun n => { n with prev := ps.getLast? }) = some m₂ := by
        refine Elements.assign_eq (fun y hy => ?_) _
        obtain ⟨ey, hey⟩ := hin y (hfirst y hy)
        have hdata := hr₁.data y
        rw [hey, Option.map_some] at hdata
        obtain ⟨e', he', -⟩ := Option.map_eq_some_iff.1 hdata
        exact ⟨e', he'⟩
      have hlinks₂ : m₂.links = setPrev (setNext m.links ps.getLast? qs.head?) qs.head? ps.getLast? := by
        rw [← Elements.links_assigned_next]
        exact Elements.links_assigned_prev ..
      -- the element itself is as before
      have he₂ : m₂ x = some e := by
        rw [List.mem_append, not_or] at hnodup'
        have hq : some x ≠ qs.head? := fun heq => hnodup'.1.2 (List.mem_of_head? heq.symm)
        have hp : some x ≠ ps.getLast? := fun heq => hnodup'.1.1 (List.mem_of_getLast? heq.symm)
        exact (Elements.assigned_of_ne hq _).trans ((Elements.assigned_of_ne hp _).trans he)
      have hxin : x ∈ {y | y ∈ ps ++ x :: qs} := List.mem_append_right ps List.mem_cons_self
      obtain ⟨bucket, m₃, bucket', hbucket, hdel, hbuckets₃, hrel⟩ :=
        (hbuckets.reordered hr).remove hxin he₂ (hbkts ▸ Nat.two_pow_pos _)
          (hbkts ▸ Nat.pow_le_pow_right (by norm_num) hlog.le)
      have hset : {y | y ∈ ps ++ x :: qs} \ {x} = {y | y ∈ ps ++ qs} := by
        ext y
        rw [Set.mem_sdiff, Set.mem_ofPred_eq, Set.mem_ofPred_eq, Set.mem_singleton_iff,
          List.mem_append, List.mem_cons, List.mem_append]
        constructor
        · rintro ⟨hy | rfl | hy, hyx⟩
          · exact .inl hy
          · exact absurd rfl hyx
          · exact .inr hy
        · intro hy
          refine ⟨hy.imp_right .inr, ?_⟩
          rintro rfl
          exact hnodup'.1 (List.mem_append.2 hy)
      rw [hset] at hbuckets₃
      simp only [hassign₁, hassign₂, Option.bind_some, head?_remove hhead, hhead', hbucket, hdel,
        getLast?_remove hnodup htail, htail']
      refine ⟨m₃, _, rfl, .table ⟨?_, ?_, fun item' hitem' => ?_, ?_, ?_, ?_, hbkts, hlog, ?_⟩,
        fun y hy => ?_, ?_⟩
      · rw [hrest]
        exact hnodup'.2
      · rw [hrest, hrel.links, hlinks₂]
        exact hlinked.remove hnodup
      · have hmem : item' ∈ before ++ item :: after := by
          rcases List.mem_append.1 hitem' with hmem | hmem
          · exact List.mem_append_left _ hmem
          · exact List.mem_append_right _ (List.mem_cons_of_mem item hmem)
        exact (hheld item' hmem).congr ((hrel.data _).trans (hr.data _))
      · rw [hrest]
        exact hhead'
      · rw [hrest]
        exact htail'
      · dsimp only
        rw [hnum, List.length_append, List.length_append, List.length_cons]
        rfl
      · rw [hrest]
        exact hbuckets₃
      · rw [hrel.same y hy, hr.same y hy]
      · have hdata := hrel.data x
        rw [he₂, Option.map_some] at hdata
        obtain ⟨e', he', -⟩ := Option.map_eq_some_iff.1 hdata
        exact ⟨e', he'⟩

/-! ## Freeing all elements -/

omit [DecidableEq ι] in
/-- The element behind the first one. -/
theorem HashHolds.nextOf {item : Item ι α} (h : HashHolds hashFcn m hash (item :: items)) :
    m.nextOf (some item.pointer) = some (pointers items).head? := by
  cases h with
  | table htable =>
    obtain ⟨hlink, -⟩ := htable.linked
    obtain ⟨e, he, hlinks⟩ := Option.map_eq_some_iff.1 hlink
    rw [Elements.nextOf, he, Option.map_some, ← Option.or_none (o := (pointers items).head?)]
    exact congrArg some (congrArg Link.next hlinks)

/-- **All elements are freed**, each once, and no others. -/
theorem hashFreeAll_holds : ∀ {items : List (Item ι α)} {m : Elements ι α}
    {hash : Option (UtHash ι)}, HashHolds hashFcn m hash items →
    ∃ m', hashFreeAll items.length m hash (pointers items).head? (pointers items).tail.head? =
      some (m', none) ∧
      (∀ x ∈ pointers items, m' x = none) ∧ ∀ y, y ∉ pointers items → m' y = m y
  | [], m, hash, h => by
    have hnone : hash = none := by
      cases h with
      | empty => rfl
      | table htable => exact absurd htable.head nofun
    rw [hnone]
    exact ⟨m, rfl, List.forall_mem_nil _, fun _ _ => rfl⟩
  | item :: items, m, hash, h => by
    have hfirst : HashHolds hashFcn m hash ([] ++ item :: items) := h
    obtain ⟨m₁, hash₁, hdelete, h₁, hsame₁, e, he⟩ := hashDelete_holds hfirst
    obtain ⟨hnotin, -⟩ := List.nodup_cons.1 h.nodup
    set m₂ : Elements ι α := Function.update m₁ item.pointer none with hm₂
    have hfree : m₁.free item.pointer = some m₂ := by
      rw [Elements.free, he, Option.map_some]
    have h₂ : HashHolds hashFcn m₂ hash₁ items :=
      h₁.congr fun x hx => Function.update_of_ne (ne_of_mem_of_not_mem hx hnotin) _ _
    have hnext : m₂.nextOf (pointers items).head? = some (pointers items).tail.head? := by
      cases items with
      | nil => rfl
      | cons item' items => exact h₂.nextOf
    obtain ⟨m', hfrees, hfreed, hsame⟩ := hashFreeAll_holds h₂
    refine ⟨m', ?_, fun x hx => ?_, fun y hy => ?_⟩
    · rw [List.length_cons, pointers, List.map_cons, List.head?_cons, List.tail_cons, hashFreeAll,
        hdelete]
      simp only [Option.bind_eq_bind, Option.bind_some, hfree]
      rw [← pointers, hnext]
      exact hfrees
    · rcases List.mem_cons.1 hx with rfl | hx
      · rw [hsame _ hnotin]
        exact Function.update_self ..
      · exact hfreed x hx
    · have hy' := hy
      rw [pointers, List.map_cons, List.mem_cons, not_or] at hy'
      rw [hsame y hy'.2, hm₂, Function.update_of_ne hy'.1]
      exact hsame₁ y hy

end Honas
