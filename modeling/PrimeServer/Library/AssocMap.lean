import Mathlib.Data.List.Induction
import Mathlib.Data.List.Nodup
import Mathlib.Data.List.Perm.Basic
import Mathlib.Tactic.Common

/-!
# Hash maps with a fixed iteration order

A hash map whose keys are compared after normalisation, as a list of entries in iteration order.
The entries carry the proof that no two keys have the same normal form. Two maps with the same
entries in different orders are `Same`: a hash map promises nothing about the order. Where a program goes
through a map, an `Order` stands for the one that it happens to take.

## Main results

* `Same.find_eq`: a lookup does not depend on the order;
* `Same.eq_of_length_le_one`: a map with one entry has one order;
* `find_insert`, `find_modify`, `find_pushAll`: what is found after a change;
* `entries_insertAll`: inserting entries with distinct keys keeps them in order;
* `entries_pushAll_pairs`: pushing the values of each key one after another rebuilds a map of lists.
-/

variable {κ κ' ν : Type*} [DecidableEq κ'] {norm : κ → κ'}

/-- A map with keys compared by `norm`, its entries in iteration order. -/
structure AssocMap (norm : κ → κ') (ν : Type*) where
  /-- The entries in iteration order. -/
  entries : List (κ × ν)
  /-- No two keys are equal after normalisation. -/
  nodup : (entries.map fun e => norm e.1).Nodup
  deriving DecidableEq

namespace AssocMap

/-- The keys of a list of entries, normalised. -/
def keys (norm : κ → κ') (l : List (κ × ν)) : List κ' :=
  l.map fun e => norm e.1

omit [DecidableEq κ'] in
@[simp]
theorem keys_append (l l' : List (κ × ν)) : keys norm (l ++ l') = keys norm l ++ keys norm l' :=
  List.map_append

omit [DecidableEq κ'] in
/-- The key of the first entry, and then those of the others. -/
@[simp]
theorem keys_cons (e : κ × ν) (l : List (κ × ν)) : keys norm (e :: l) = norm e.1 :: keys norm l :=
  rfl

omit [DecidableEq κ'] in
@[simp]
theorem keys_nil : keys norm ([] : List (κ × ν)) = [] := rfl

omit [DecidableEq κ'] in
/-- A map is its entries: that no two of them have the same key is a proof. -/
theorem ext_entries {m m' : AssocMap norm ν} (h : m.entries = m'.entries) : m = m' := by
  cases m
  cases m'
  simpa using h

/-- The map without entries. -/
def empty : AssocMap norm ν where
  entries := []
  nodup := List.nodup_nil

/-- The value stored for a key. -/
def find (m : AssocMap norm ν) (k : κ) : Option ν :=
  (m.entries.find? fun e => norm e.1 = norm k).map Prod.snd

/-- The key has no entry exactly when its normal form is not among those of the entries. -/
theorem find_eq_none_iff {m : AssocMap norm ν} {k : κ} :
    m.find k = none ↔ norm k ∉ keys norm m.entries := by
  simp [find, keys]

/-- What was found is among the entries, under a key that counts as the same. -/
theorem mem_entries_of_find {m : AssocMap norm ν} {k : κ} {v : ν} (h : m.find k = some v) :
    ∃ k', norm k' = norm k ∧ (k', v) ∈ m.entries := by
  obtain ⟨⟨k', v'⟩, he, rfl⟩ := Option.map_eq_some_iff.mp h
  exact ⟨k', by simpa using List.find?_some he, List.mem_of_find?_eq_some he⟩

/-- An entry of the map is what a lookup of its key finds. -/
theorem find_of_mem {m : AssocMap norm ν} {k : κ} {v : ν} (h : (k, v) ∈ m.entries) {k' : κ}
    (hk : norm k = norm k') : m.find k' = some v := by
  cases hfind : m.find k' with
  | none =>
    rw [find_eq_none_iff] at hfind
    exact absurd (List.mem_map.mpr ⟨_, h, hk⟩) hfind
  | some w =>
    obtain ⟨k'', hk'', hmem⟩ := mem_entries_of_find hfind
    have hinj := List.inj_on_of_nodup_map m.nodup h hmem (hk.trans hk''.symm)
    rw [(Prod.mk.inj hinj).2]

/-- Insert an entry unless its key is present: the first value of a key stays. -/
def insert (m : AssocMap norm ν) (k : κ) (v : ν) : AssocMap norm ν :=
  if h : norm k ∈ keys norm m.entries then m
  else
    { entries := m.entries ++ [(k, v)]
      nodup := by
        have hdisjoint := List.Nodup.append m.nodup (List.nodup_singleton (norm k))
        simpa [keys] using hdisjoint (by simpa [keys] using h) }

/-- As with `std::unordered_map::insert` and `emplace`, an entry that is there stays as it is. -/
theorem insert_of_mem {m : AssocMap norm ν} {k : κ} (h : norm k ∈ keys norm m.entries) (v : ν) :
    m.insert k v = m := by
  simp [insert, h]

/-- A new entry goes to the end. -/
theorem entries_insert_of_not_mem {m : AssocMap norm ν} {k : κ}
    (h : norm k ∉ keys norm m.entries) (v : ν) :
    (m.insert k v).entries = m.entries ++ [(k, v)] := by
  simp [insert, h]

/-- Each entry after an insertion was there before or is the one that was inserted. -/
theorem mem_entries_insert {m : AssocMap norm ν} {k : κ} {v : ν} {e : κ × ν}
    (h : e ∈ (m.insert k v).entries) : e ∈ m.entries ∨ e = (k, v) := by
  by_cases hk : norm k ∈ keys norm m.entries
  · exact Or.inl (by rwa [insert_of_mem hk] at h)
  · simpa [entries_insert_of_not_mem hk] using h

/-- Change the value stored for a key, if there is one. -/
def modify (m : AssocMap norm ν) (k : κ) (f : ν → ν) : AssocMap norm ν where
  entries := m.entries.map fun e => if norm e.1 = norm k then (e.1, f e.2) else e
  nodup := by
    have hkeys : ((fun e : κ × ν => norm e.1) ∘
        fun e => if norm e.1 = norm k then (e.1, f e.2) else e) = fun e => norm e.1 := by
      funext e
      simp only [Function.comp]
      split <;> rfl
    simpa [List.map_map, hkeys] using m.nodup

/-- A lookup after an insertion: the old value wins. -/
theorem find_insert (m : AssocMap norm ν) (k : κ) (v : ν) (k' : κ) :
    (m.insert k v).find k' =
      if norm k' = norm k then some ((m.find k').getD v) else m.find k' := by
  by_cases hk : norm k ∈ keys norm m.entries
  · rw [insert_of_mem hk]
    split_ifs with heq
    · cases hfind : m.find k' with
      | none => exact absurd (heq ▸ hk) (find_eq_none_iff.mp hfind)
      | some w => rfl
    · rfl
  · have hentries := entries_insert_of_not_mem hk v
    split_ifs with heq
    · have hnone : m.find k' = none := find_eq_none_iff.mpr (heq ▸ hk)
      have hfind : (m.entries.find? fun e => norm e.1 = norm k') = none :=
        Option.map_eq_none_iff.mp hnone
      rw [hnone, find, hentries, List.find?_append, hfind]
      simp [heq]
    · rw [find, find, hentries, List.find?_append]
      simp [Ne.symm heq]

/-- A lookup after a change of one value. -/
theorem find_modify (m : AssocMap norm ν) (k : κ) (f : ν → ν) (k' : κ) :
    (m.modify k f).find k' = if norm k' = norm k then (m.find k').map f else m.find k' := by
  have hkeys : ((fun e : κ × ν => decide (norm e.1 = norm k')) ∘
      fun e => if norm e.1 = norm k then (e.1, f e.2) else e) = fun e => decide (norm e.1 = norm k') := by
    funext e
    simp only [Function.comp]
    split <;> rfl
  simp only [find, modify, List.find?_map, hkeys, Option.map_map]
  cases hfind : m.entries.find? fun e => norm e.1 = norm k' with
  | none => simp
  | some e =>
    have he : norm e.1 = norm k' := by simpa using List.find?_some hfind
    simp only [Option.map_some, Function.comp, he]
    split <;> rfl

/-- The two maps hold the same entries, in whatever order. -/
def Same (m m' : AssocMap norm ν) : Prop :=
  m.entries.Perm m'.entries

omit [DecidableEq κ'] in
/-- A map is the same as itself in every order of going through it. -/
@[refl]
theorem Same.refl (m : AssocMap norm ν) : m.Same m :=
  List.Perm.refl _

omit [DecidableEq κ'] in
/-- The order of the two maps does not matter. -/
theorem Same.symm {m m' : AssocMap norm ν} (h : m.Same m') : m'.Same m :=
  List.Perm.symm h

omit [DecidableEq κ'] in
/-- A map in a third order is still the same map. -/
theorem Same.trans {m m' m'' : AssocMap norm ν} (h : m.Same m') (h' : m'.Same m'') : m.Same m'' :=
  List.Perm.trans h h'

/-- A lookup does not depend on the iteration order. -/
theorem Same.find_eq {m m' : AssocMap norm ν} (h : m.Same m') (k : κ) : m.find k = m'.find k := by
  cases hfind : m.find k with
  | none =>
    rw [find_eq_none_iff] at hfind
    have hkeys : norm k ∉ keys norm m'.entries := fun hmem =>
      hfind ((List.Perm.mem_iff (h.map fun e => norm e.1)).mpr hmem)
    exact (find_eq_none_iff.mpr hkeys).symm
  | some v =>
    obtain ⟨k', hk', hmem⟩ := mem_entries_of_find hfind
    exact (find_of_mem (h.mem_iff.mp hmem) hk').symm

/-- Inserting into the same map in another order gives the same map in another order. -/
theorem Same.insert {m m' : AssocMap norm ν} (h : m.Same m') (k : κ) (v : ν) :
    (m.insert k v).Same (m'.insert k v) := by
  have hperm : (keys norm m.entries).Perm (keys norm m'.entries) := h.map _
  have hkeys := hperm.mem_iff (a := norm k)
  by_cases hk : norm k ∈ keys norm m.entries
  · rwa [insert_of_mem hk, insert_of_mem (hkeys.mp hk)]
  · have hk' := fun hmem => hk (hkeys.mpr hmem)
    rw [Same, entries_insert_of_not_mem hk, entries_insert_of_not_mem hk']
    exact h.append_right _

omit [DecidableEq κ'] in
/-- A map with at most one entry has only one iteration order. -/
theorem Same.eq_of_length_le_one {m m' : AssocMap norm ν} (h : m.Same m') (hone : m'.entries.length ≤ 1) :
    m = m' := by
  apply ext_entries
  rcases Nat.le_one_iff_eq_zero_or_eq_one.mp hone with hzero | hone
  · have hnil := List.length_eq_zero_iff.mp hzero
    rw [hnil]
    exact List.perm_nil.mp (hnil ▸ h)
  · obtain ⟨e, he⟩ := List.length_eq_one_iff.mp hone
    rw [he]
    exact List.perm_singleton.mp (he ▸ h)

/-- A way to go through maps: for each map, its entries in the order in which they come. -/
structure Order (norm : κ → κ') (ν : Type*) where
  /-- The entries in the order of the iteration. -/
  arrange : AssocMap norm ν → AssocMap norm ν
  /-- It comes across the entries of the map and no others. -/
  same : ∀ m, (arrange m).Same m

/-- The order in which the keys were inserted. -/
def Order.insertion : Order norm ν where
  arrange m := m
  same m := .refl m

/-- Insert entries one after another. -/
def insertAll (m : AssocMap norm ν) (l : List (κ × ν)) : AssocMap norm ν :=
  l.foldl (fun m e => m.insert e.1 e.2) m

@[simp]
theorem insertAll_nil (m : AssocMap norm ν) : m.insertAll [] = m := rfl

@[simp]
theorem insertAll_cons (m : AssocMap norm ν) (e : κ × ν) (l : List (κ × ν)) :
    m.insertAll (e :: l) = (m.insert e.1 e.2).insertAll l := rfl

/-- Entries whose keys are all new are kept, in order. -/
theorem entries_insertAll {m : AssocMap norm ν} {l : List (κ × ν)}
    (h : (keys norm (m.entries ++ l)).Nodup) : (m.insertAll l).entries = m.entries ++ l := by
  induction l generalizing m with
  | nil => simp
  | cons e l ih =>
    have hk : norm e.1 ∉ keys norm m.entries := by
      simp only [keys_append, keys_cons] at h
      exact fun hmem => (List.disjoint_of_nodup_append h) hmem List.mem_cons_self
    have hentries := entries_insert_of_not_mem hk e.2
    rw [insertAll_cons, ih (by simpa [hentries] using h), hentries]
    simp

/-- Inserting the entries of a map into the empty map rebuilds it. -/
theorem insertAll_entries (m : AssocMap norm ν) : empty.insertAll m.entries = m := by
  apply ext_entries
  rw [entries_insertAll (by simpa [empty, keys] using m.nodup)]
  simp [empty]

section Lists

variable {β : Type*}

/-- Append a value to the list stored for a key, which is created when there is none. -/
def push (m : AssocMap norm (List β)) (k : κ) (v : β) : AssocMap norm (List β) :=
  (m.insert k []).modify k (· ++ [v])

/-- Push values one after another. -/
def pushAll (m : AssocMap norm (List β)) (l : List (κ × β)) : AssocMap norm (List β) :=
  l.foldl (fun m e => m.push e.1 e.2) m

/-- The key-value pairs of a map of lists, key by key. -/
def pairs (l : List (κ × List β)) : List (κ × β) :=
  l.flatMap fun e => e.2.map fun v => (e.1, v)

@[simp]
theorem pushAll_nil (m : AssocMap norm (List β)) : m.pushAll [] = m := rfl

@[simp]
theorem pushAll_cons (m : AssocMap norm (List β)) (e : κ × β) (l : List (κ × β)) :
    m.pushAll (e :: l) = (m.push e.1 e.2).pushAll l := rfl

/-- Values can be pushed in two goes. -/
theorem pushAll_append (m : AssocMap norm (List β)) (l l' : List (κ × β)) :
    m.pushAll (l ++ l') = (m.pushAll l).pushAll l' :=
  List.foldl_append

/-- Entries of other keys are not touched. -/
private theorem map_modify_of_not_mem {l : List (κ × ν)} {k : κ} (f : ν → ν)
    (h : norm k ∉ keys norm l) :
    (l.map fun e => if norm e.1 = norm k then (e.1, f e.2) else e) = l := by
  refine (List.map_congr_left fun e he => ?_).trans (List.map_id l)
  have hne : norm e.1 ≠ norm k := fun heq => h (List.mem_map.mpr ⟨e, he, heq⟩)
  simp [hne]

/-- The first value of a key makes a new entry at the end. -/
theorem entries_push_of_not_mem {m : AssocMap norm (List β)} {k : κ}
    (h : norm k ∉ keys norm m.entries) (v : β) :
    (m.push k v).entries = m.entries ++ [(k, [v])] := by
  have hmap := map_modify_of_not_mem (fun vs : List β => vs ++ [v]) h
  simp [push, modify, entries_insert_of_not_mem h, hmap]

/-- A further value for the last key goes to the end of its values. -/
theorem entries_push_of_last {m : AssocMap norm (List β)} {l : List (κ × List β)} {k : κ}
    {vs : List β} (hentries : m.entries = l ++ [(k, vs)]) (v : β) :
    (m.push k v).entries = l ++ [(k, vs ++ [v])] := by
  have hk : norm k ∈ keys norm m.entries := by simp [hentries]
  have hl : norm k ∉ keys norm l := by
    have hnodup : (keys norm (l ++ [(k, vs)])).Nodup := hentries ▸ m.nodup
    simp only [keys_append, keys_cons, keys_nil] at hnodup
    exact fun hmem => (List.disjoint_of_nodup_append hnodup) hmem List.mem_cons_self
  have hmap := map_modify_of_not_mem (fun vs : List β => vs ++ [v]) hl
  simp [push, insert_of_mem hk, modify, hentries, hmap]

/-- Pushing more values for the last key extends its list. -/
theorem entries_pushAll_of_last {m : AssocMap norm (List β)} {l : List (κ × List β)} {k : κ}
    {vs : List β} (hentries : m.entries = l ++ [(k, vs)]) (ws : List β) :
    (m.pushAll (ws.map fun v => (k, v))).entries = l ++ [(k, vs ++ ws)] := by
  induction ws generalizing m vs with
  | nil => simpa using hentries
  | cons w ws ih =>
    rw [List.map_cons, pushAll_cons, ih (entries_push_of_last hentries w)]
    simp

/-- Pushing the pairs of entries with new keys and non-empty lists appends these entries. -/
theorem entries_pushAll_pairs {m : AssocMap norm (List β)} {l : List (κ × List β)}
    (hnodup : (keys norm (m.entries ++ l)).Nodup) (hne : ∀ e ∈ l, e.2 ≠ []) :
    (m.pushAll (pairs l)).entries = m.entries ++ l := by
  induction l generalizing m with
  | nil => simp [pairs]
  | cons e l ih =>
    obtain ⟨k, vs⟩ := e
    obtain ⟨v, ws, rfl⟩ := List.exists_cons_of_ne_nil (hne (k, vs) List.mem_cons_self)
    -- the first pair of an entry adds the key, the others find it there
    have hk : norm k ∉ keys norm m.entries := by
      simp only [keys_append, keys_cons] at hnodup
      exact fun hmem => (List.disjoint_of_nodup_append hnodup) hmem List.mem_cons_self
    have hhead := entries_pushAll_of_last (entries_push_of_not_mem hk v) ws
    have hpairs : pairs ((k, v :: ws) :: l) =
        (k, v) :: ws.map (fun v => (k, v)) ++ pairs l := rfl
    rw [hpairs, pushAll_append, pushAll_cons, ih]
    · rw [hhead]
      simp
    · rw [hhead]
      simpa using hnodup
    · exact fun e he => hne e (List.mem_cons_of_mem _ he)

/-- A map that something was pushed onto is not empty. -/
theorem entries_push_ne_nil (m : AssocMap norm (List β)) (k : κ) (v : β) :
    (m.push k v).entries ≠ [] := by
  have hinsert : (m.insert k ([] : List β)).entries ≠ [] := by
    by_cases hk : norm k ∈ keys norm m.entries
    · rw [insert_of_mem hk]
      rintro hnil
      simp [hnil] at hk
    · simp [entries_insert_of_not_mem hk]
  simpa [push, modify] using hinsert

/-- Only pushing nothing leaves the map empty. -/
theorem entries_pushAll_eq_nil_iff {l : List (κ × β)} :
    ((empty : AssocMap norm (List β)).pushAll l).entries = [] ↔ l = [] := by
  induction l using List.reverseRecOn with
  | nil => simp [empty]
  | append_singleton l e _ =>
    rw [pushAll_append, pushAll_cons, pushAll_nil]
    simp [entries_push_ne_nil]

/-- Where entries of a map come from when a value is pushed, if keys are compared as they are. -/
theorem mem_entries_push (hinj : Function.Injective norm) {m : AssocMap norm (List β)} {k : κ}
    {v : β} {e : κ × List β} (h : e ∈ (m.push k v).entries) :
    e ∈ m.entries ∨ ∃ vs, e = (k, vs ++ [v]) ∧ (vs = [] ∨ (k, vs) ∈ m.entries) := by
  obtain ⟨⟨k', vs⟩, hmem, rfl⟩ := List.mem_map.mp h
  by_cases hk : norm k' = norm k
  · obtain rfl := hinj hk
    refine Or.inr ⟨vs, by simp, ?_⟩
    rcases mem_entries_insert hmem with hmem | heq
    · exact Or.inr hmem
    · exact Or.inl (Prod.mk.inj heq).2
  · rw [if_neg hk]
    rcases mem_entries_insert hmem with hmem | heq
    · exact Or.inl hmem
    · exact absurd (congrArg norm (Prod.mk.inj heq).1) hk

/-- The lists of a map that was built by pushing have no other values than those pushed, and none of
them is empty. -/
theorem mem_of_mem_entries_pushAll (hinj : Function.Injective norm) {l : List (κ × β)}
    {e : κ × List β} (h : e ∈ ((empty : AssocMap norm (List β)).pushAll l).entries) :
    e.2 ≠ [] ∧ ∀ v ∈ e.2, (e.1, v) ∈ l := by
  induction l using List.reverseRecOn generalizing e with
  | nil => simp [empty] at h
  | append_singleton l x ih =>
    rw [pushAll_append, pushAll_cons, pushAll_nil] at h
    -- the entry was there before the last pair, or the last pair went to it
    rcases mem_entries_push hinj h with hmem | ⟨vs, rfl, hvs⟩
    · obtain ⟨hne, hvalues⟩ := ih hmem
      exact ⟨hne, fun v hv => List.mem_append_left _ (hvalues v hv)⟩
    · refine ⟨by simp, fun v hv => ?_⟩
      rcases List.mem_append.mp hv with hv | hv
      · rcases hvs with rfl | hmem
        · simp at hv
        · exact List.mem_append_left _ ((ih hmem).2 v hv)
      · obtain rfl : v = x.2 := by simpa using hv
        simp

/-- The values pushed for a key, in order. -/
def valuesOf (norm : κ → κ') (k : κ) (l : List (κ × β)) : List β :=
  (l.filter fun e => norm e.1 = norm k).map Prod.snd

/-- A lookup after a push: the value comes after those that were there. -/
theorem find_push (m : AssocMap norm (List β)) (k : κ) (v : β) (k' : κ) :
    (m.push k v).find k' =
      if norm k' = norm k then some ((m.find k').getD [] ++ [v]) else m.find k' := by
  rw [push, find_modify, find_insert]
  split_ifs <;> rfl

/-- Nothing is lost of what is pushed, and nothing else is there. -/
theorem find_pushAll (l : List (κ × β)) (k : κ) :
    ((empty : AssocMap norm (List β)).pushAll l).find k =
      if valuesOf norm k l = [] then none else some (valuesOf norm k l) := by
  induction l using List.reverseRecOn with
  | nil => rfl
  | append_singleton l e ih =>
    rw [pushAll_append, pushAll_cons, pushAll_nil, find_push, ih]
    by_cases hk : norm k = norm e.1
    · have hvalues : valuesOf norm k (l ++ [e]) = valuesOf norm k l ++ [e.2] := by
        simp [valuesOf, List.filter_append, hk]
      rw [if_pos hk, hvalues]
      by_cases hnil : valuesOf norm k l = [] <;> simp [hnil]
    · have hvalues : valuesOf norm k (l ++ [e]) = valuesOf norm k l := by
        simp [valuesOf, List.filter_append, Ne.symm hk]
      rw [if_neg hk, hvalues]

end Lists

end AssocMap
