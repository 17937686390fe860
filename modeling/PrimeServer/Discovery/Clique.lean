import PrimeServer.Cpp.Stoul
import PrimeServer.Cpp.UnorderedMap
import PrimeServer.Library.Transition
import Mathlib.Algebra.Order.Group.Int
import Mathlib.Data.List.Induction
import Mathlib.Data.List.Nodup
import Mathlib.Order.Basic

/-!
# Discovery of peers

The part of `beacon_t` that remembers who has checked in, and when. Three containers refer to each other
through iterators. A stored iterator is identified with its entry: one into `services` is the key of the
entry, and one into `punch_card` is the address of the node. Whether an insertion into `services` leaves the
iterators to its other entries valid, which the standard does not promise, is not a question of this model.

## Main results

* `CheshireCat.tracks_of_run`: with a clock that does not go back, the containers agree in every run;
* `CheshireCat.view_of_run`: who has joined, who is dropped, and who stays;
* `CheshireCat.services_of_updates`: the services after a run of `beacon_t::update`.
-/

namespace PrimeServer

/-- A check-in on the punch card. -/
structure CheckIn where
  /-- The address of the node in the list. -/
  node : ℕ
  /-- When the endpoint was last heard of. -/
  time : ℤ
  /-- The iterator into `services`, identified with its entry: the endpoint. -/
  service : Bytes
  deriving DecidableEq

/-- `services_t`. -/
abbrev Services := UnorderedMap Bytes Bytes

/-- The info about others in `beacon_t::cheshire_cat_t`. -/
structure CheshireCat where
  /-- The services by their endpoints. -/
  services : Services
  /-- The check-ins, from the oldest one. -/
  punchCard : List CheckIn
  /-- The node of `punch_card` that an endpoint's latest check-in is in. -/
  clique : UnorderedMap Bytes ℕ
  /-- The address of the next node. -/
  next : ℕ

namespace CheshireCat

/-- Nobody has checked in. -/
def start : CheshireCat where
  services := .empty
  punchCard := []
  clique := .empty
  next := 0

/-- Erase their last check in, and say whether there was none. The outer `none` stands for the use of an
iterator that leads nowhere. -/
def checkOut (c : CheshireCat) (endpoint : Bytes) : Option (CheshireCat × Bool) :=
  match c.clique.find endpoint with
  | none => some (c, true)
  | some node =>
    match c.punchCard.find? (·.node = node) with
    | none => none
    | some entry =>
      if c.services.find entry.service = none then none
      else
        some
          ({ c with
              services := c.services.erase entry.service
              punchCard := c.punchCard.filter (·.node ≠ node)
              clique := c.clique.erase endpoint }, false)

/-- Check them in. -/
def checkIn (c : CheshireCat) (now : ℤ) (endpoint uuid : Bytes) : CheshireCat where
  services := c.services.emplace endpoint uuid
  punchCard := c.punchCard ++ [{ node := c.next, time := now, service := endpoint }]
  clique := c.clique.emplace endpoint c.next
  next := c.next + 1

/-- `join_clique`, at a time. -/
def joinClique (c : CheshireCat) (now : ℤ) (endpoint uuid : Bytes) : Option (CheshireCat × Bool) :=
  (c.checkOut endpoint).map fun (c, joined) => (c.checkIn now endpoint uuid, joined)

/-- The loop of `purge_clique` over the check-ins, and the `erase` after it. -/
def purgeLoop (now maxAge : ℤ) :
    List CheckIn → CheshireCat → Services → Option (CheshireCat × Services)
  | [], c, dropped => some ({ c with punchCard := [] }, dropped)
  | entry :: later, c, dropped =>
    -- youre too young to die!
    if now - entry.time < maxAge then some ({ c with punchCard := entry :: later }, dropped)
    -- hit the pike codger!
    else
      match c.services.find entry.service with
      | none => none
      | some uuid =>
        purgeLoop now maxAge later
          { c with
            clique := c.clique.erase entry.service
            services := c.services.erase entry.service }
          (dropped.emplace entry.service uuid)

/-- `purge_clique`, at a time. -/
def purgeClique (c : CheshireCat) (now maxAge : ℤ) : Option (CheshireCat × Services) :=
  purgeLoop now maxAge c.punchCard c .empty

/-- A call of one of the two. -/
inductive Call where
  /-- `online`, for a beacon that was heard at this time. -/
  | join (now : ℤ) (endpoint uuid : Bytes)
  /-- `purge`, at this time and with this age. -/
  | purge (now maxAge : ℤ)
  deriving DecidableEq

/-- The time of a call. -/
def Call.now : Call → ℤ
  | .join now _ _ | .purge now _ => now

/-- The effect of a call. -/
def step (c : CheshireCat) : Call → Option CheshireCat
  | .join now endpoint uuid => (c.joinClique now endpoint uuid).map Prod.fst
  | .purge now maxAge => (c.purgeClique now maxAge).map Prod.fst

/-- The three containers hold the same endpoints, each once, and refer to each other's entries. No clock has
a part in this. -/
structure Linked (c : CheshireCat) : Prop where
  /-- No endpoint is on the card twice. -/
  once : (c.punchCard.map CheckIn.service).Nodup
  /-- A service is known as long as it is on the card. -/
  services : ∀ endpoint, c.services.find endpoint ≠ none ↔ endpoint ∈ c.punchCard.map CheckIn.service
  /-- The clique finds the check-in of each endpoint on the card, and no other node. -/
  clique : ∀ endpoint node, c.clique.find endpoint = some node ↔
    ∃ entry ∈ c.punchCard, entry.service = endpoint ∧ entry.node = node
  /-- No two check-ins are in one node. -/
  nodes : (c.punchCard.map CheckIn.node).Nodup
  /-- The next node is not in use. -/
  fresh : ∀ entry ∈ c.punchCard, entry.node < c.next

/-- The three containers hold the same endpoints, each once, in the order of their check-ins. -/
structure Consistent (c : CheshireCat) : Prop extends c.Linked where
  /-- The check-ins are in the order of their times, which `purge` relies on. -/
  ordered : c.punchCard.Pairwise fun entry later => entry.time ≤ later.time

/-- The three empty containers belong together. -/
theorem linked_start : start.Linked where
  once := List.nodup_nil
  services := by simp [start]
  clique := by simp [start]
  nodes := List.nodup_nil
  fresh := by simp [start]

/-- At the start nobody has checked in, so that the order of check-ins is kept. -/
theorem consistent_start : start.Consistent where
  toLinked := linked_start
  ordered := List.Pairwise.nil

variable {c : CheshireCat} {now maxAge : ℤ} {endpoint uuid : Bytes}

/-- The containers with only the endpoints that `p` holds of. -/
def restrict (c : CheshireCat) (p : Bytes → Bool) : CheshireCat :=
  { c with
    services.find := fun endpoint => if p endpoint then c.services.find endpoint else none
    punchCard := c.punchCard.filter fun entry => p entry.service
    clique.find := fun endpoint => if p endpoint then c.clique.find endpoint else none }

/-- An endpoint is one of the services exactly if it has an entry on the punch card. -/
theorem Linked.find_services_ne_none_iff (hc : c.Linked) :
    c.services.find endpoint ≠ none ↔ ∃ entry ∈ c.punchCard, entry.service = endpoint := by
  rw [hc.services, List.mem_map]

/-- An endpoint is unknown to `clique` exactly if it is none of the services. -/
theorem Linked.find_clique_eq_none_iff (hc : c.Linked) :
    c.clique.find endpoint = none ↔ c.services.find endpoint = none := by
  refine not_iff_not.mp ?_
  rw [← ne_eq, ← ne_eq, hc.find_services_ne_none_iff, Option.ne_none_iff_exists']
  constructor
  · rintro ⟨node, hnode⟩
    obtain ⟨entry, hentry, hservice, -⟩ := (hc.clique endpoint node).mp hnode
    exact ⟨entry, hentry, hservice⟩
  · rintro ⟨entry, hentry, hservice⟩
    exact ⟨entry.node, (hc.clique endpoint entry.node).mpr ⟨entry, hentry, hservice, rfl⟩⟩

/-- Containers that agree still agree when the same endpoints are taken out of each. -/
theorem Linked.restrict (hc : c.Linked) (p : Bytes → Bool) : (c.restrict p).Linked where
  once := hc.once.sublist (List.filter_sublist.map _)
  services e := by
    simp only [CheshireCat.restrict, List.mem_map, List.mem_filter]
    by_cases he : p e
    · rw [if_pos he, hc.find_services_ne_none_iff]
      constructor
      · rintro ⟨entry, hentry, rfl⟩
        exact ⟨entry, ⟨hentry, he⟩, rfl⟩
      · rintro ⟨entry, ⟨hentry, -⟩, rfl⟩
        exact ⟨entry, hentry, rfl⟩
    · -- an endpoint that is taken out has no entry either
      rw [if_neg he]
      refine iff_of_false (· rfl) ?_
      rintro ⟨entry, ⟨-, hentry⟩, rfl⟩
      exact he hentry
  clique e node := by
    simp only [CheshireCat.restrict, List.mem_filter]
    by_cases he : p e
    · rw [if_pos he, hc.clique]
      constructor
      · rintro ⟨entry, hentry, rfl, rfl⟩
        exact ⟨entry, ⟨hentry, he⟩, rfl, rfl⟩
      · rintro ⟨entry, ⟨hentry, -⟩, rfl, rfl⟩
        exact ⟨entry, hentry, rfl, rfl⟩
    · rw [if_neg he]
      refine iff_of_false nofun ?_
      rintro ⟨entry, ⟨-, hentry⟩, rfl, -⟩
      exact he hentry
  nodes := hc.nodes.sublist (List.filter_sublist.map _)
  fresh entry hentry := hc.fresh entry (List.mem_of_mem_filter hentry)

/-- Taking away whole endpoints keeps the containers consistent. -/
theorem Consistent.restrict (hc : c.Consistent) (p : Bytes → Bool) : (c.restrict p).Consistent where
  toLinked := hc.toLinked.restrict p
  ordered := hc.ordered.sublist List.filter_sublist

/-! ### Joining -/

/-- Erasing one key is restricting the map to the others. -/
theorem erase_eq {ν : Type} (m : UnorderedMap Bytes ν) (endpoint : Bytes) :
    m.erase endpoint = ⟨fun e => if decide (e ≠ endpoint) then m.find e else none⟩ := by
  ext1
  funext e
  rw [UnorderedMap.find_erase]
  by_cases he : e = endpoint <;> simp [he]

/-- Where an endpoint is not present, nothing changes without it. -/
theorem Linked.restrict_eq_self (hc : c.Linked) (habsent : c.services.find endpoint = none) :
    c.restrict (· ≠ endpoint) = c := by
  have hservices : ∀ e, (if decide (e ≠ endpoint) then c.services.find e else none) =
      c.services.find e := by
    intro e
    by_cases he : e = endpoint
    · simp [he, habsent]
    · simp [he]
  have hclique : ∀ e, (if decide (e ≠ endpoint) then c.clique.find e else none) = c.clique.find e := by
    intro e
    by_cases he : e = endpoint
    · simp [he, hc.find_clique_eq_none_iff.mpr habsent]
    · simp [he]
  -- whoever is on the card is among the services
  have hcard : (c.punchCard.filter fun entry => decide (entry.service ≠ endpoint)) = c.punchCard := by
    refine List.filter_eq_self.mpr fun entry hentry => ?_
    have hne : entry.service ≠ endpoint := fun h =>
      hc.find_services_ne_none_iff.mpr ⟨entry, hentry, h⟩ habsent
    simpa using hne
  simp only [CheshireCat.restrict, hservices, hclique, hcard]

/-- Whoever checks out is gone from all containers, and nobody else. -/
theorem Linked.checkOut_eq (hc : c.Linked) (endpoint : Bytes) :
    c.checkOut endpoint =
      some (c.restrict (· ≠ endpoint), decide (c.services.find endpoint = none)) := by
  rw [checkOut]
  cases hfind : c.clique.find endpoint with
  | none =>
    have habsent := hc.find_clique_eq_none_iff.mp hfind
    rw [hc.restrict_eq_self habsent, habsent]
    rfl
  | some node =>
    obtain ⟨entry, hentry, rfl, rfl⟩ := (hc.clique endpoint node).mp hfind
    have hpresent : c.services.find entry.service ≠ none :=
      hc.find_services_ne_none_iff.mpr ⟨entry, hentry, rfl⟩
    -- the iterator leads to the one check-in of this endpoint
    have hsame : ∀ other ∈ c.punchCard, other.node = entry.node ↔ other.service = entry.service := by
      intro other hother
      constructor
      · intro hnode
        rw [List.inj_on_of_nodup_map hc.nodes hother hentry hnode]
      · intro hservice
        rw [List.inj_on_of_nodup_map hc.once hother hentry hservice]
    have hnode : c.punchCard.find? (·.node = entry.node) = some entry := by
      cases hother : c.punchCard.find? (·.node = entry.node) with
      | none => simpa using List.find?_eq_none.mp hother entry hentry
      | some other =>
        have hmem := List.mem_of_find?_eq_some hother
        have heq : other.node = entry.node := by simpa using List.find?_some hother
        rw [List.inj_on_of_nodup_map hc.nodes hmem hentry heq]
    have hcard : c.punchCard.filter (·.node ≠ entry.node) =
        c.punchCard.filter (·.service ≠ entry.service) := by
      refine List.filter_congr fun other hother => ?_
      simp [hsame other hother]
    simp only [hnode, hcard, erase_eq, CheshireCat.restrict, hpresent, decide_false, if_false]

/-- Containers that agree still agree when an endpoint that is not present checks in. -/
theorem Linked.checkIn (hc : c.Linked) (habsent : c.services.find endpoint = none) (now : ℤ) (uuid : Bytes) :
    (c.checkIn now endpoint uuid).Linked := by
  have hnew : ∀ entry ∈ c.punchCard, entry.service ≠ endpoint := fun entry hentry h =>
    hc.find_services_ne_none_iff.mpr ⟨entry, hentry, h⟩ habsent
  have hclique := hc.find_clique_eq_none_iff.mpr habsent
  -- `emplace` would leave an old entry as it is, but there is none
  have hservices : (c.checkIn now endpoint uuid).services = c.services.assign endpoint uuid :=
    UnorderedMap.emplace_of_find_eq_none habsent uuid
  have hmap : (c.checkIn now endpoint uuid).clique = c.clique.assign endpoint c.next :=
    UnorderedMap.emplace_of_find_eq_none hclique c.next
  constructor
  case once =>
    rw [CheshireCat.checkIn, List.map_append, List.nodup_append]
    refine ⟨hc.once, List.nodup_singleton _, ?_⟩
    rintro _ hmem _ hlast rfl
    obtain ⟨entry, hentry, rfl⟩ := List.mem_map.mp hmem
    exact hnew entry hentry (by simpa using hlast)
  case services =>
    intro e
    rw [hservices, UnorderedMap.find_assign, CheshireCat.checkIn, List.map_append, List.mem_append,
      ← hc.services]
    by_cases he : e = endpoint <;> simp [he]
  case clique =>
    intro e node
    rw [hmap, UnorderedMap.find_assign, CheshireCat.checkIn]
    simp only [List.mem_append, List.mem_singleton, or_and_right, exists_or, exists_eq_left]
    by_cases he : e = endpoint
    · subst he
      rw [if_pos rfl]
      have hnone : ¬∃ entry ∈ c.punchCard, entry.service = e ∧ entry.node = node := by
        rintro ⟨entry, hentry, h, -⟩
        exact hnew entry hentry h
      simp [hnone]
    · rw [if_neg he, hc.clique]
      simp [Ne.symm he]
  case nodes =>
    rw [CheshireCat.checkIn, List.map_append, List.nodup_append]
    refine ⟨hc.nodes, List.nodup_singleton _, ?_⟩
    rintro _ hmem _ hlast rfl
    obtain ⟨entry, hentry, hnode⟩ := List.mem_map.mp hmem
    -- no iterator so far is the next one
    have hless := hc.fresh entry hentry
    obtain hlast : entry.node = c.next := by simpa [hnode] using hlast
    omega
  case fresh =>
    intro entry hentry
    rcases List.mem_append.mp hentry with hentry | hentry
    · exact (hc.fresh entry hentry).trans (Nat.lt_succ_self _)
    · obtain rfl := List.mem_singleton.mp hentry
      exact Nat.lt_succ_self _

/-- The card stays in order when nobody has checked in later. -/
theorem Consistent.checkIn (hc : c.Consistent) (habsent : c.services.find endpoint = none)
    (hlast : ∀ entry ∈ c.punchCard, entry.time ≤ now) (uuid : Bytes) :
    (c.checkIn now endpoint uuid).Consistent where
  toLinked := hc.toLinked.checkIn habsent now uuid
  ordered := by
    rw [CheshireCat.checkIn, List.pairwise_append]
    refine ⟨hc.ordered, List.pairwise_singleton _ _, fun entry hentry later hlater => ?_⟩
    obtain rfl := List.mem_singleton.mp hlater
    exact hlast entry hentry

/-- Whoever joins checks out first, and checks in again as one who was not here. -/
theorem Linked.joinClique_eq (hc : c.Linked) (now : ℤ) (endpoint uuid : Bytes) :
    c.joinClique now endpoint uuid =
      some ((c.restrict (· ≠ endpoint)).checkIn now endpoint uuid,
        decide (c.services.find endpoint = none)) := by
  rw [joinClique, hc.checkOut_eq]
  rfl

/-- An endpoint that was taken away is none of the services any more. -/
theorem find_services_restrict_self (c : CheshireCat) (endpoint : Bytes) :
    (c.restrict (· ≠ endpoint)).services.find endpoint = none := by
  simp [CheshireCat.restrict]

/-- Whoever has joined is there, and nobody else has come or gone. -/
theorem find_services_joined (c : CheshireCat) (now : ℤ) (endpoint uuid e : Bytes) :
    ((c.restrict (· ≠ endpoint)).checkIn now endpoint uuid).services.find e =
      if e = endpoint then some uuid else c.services.find e := by
  rw [CheshireCat.checkIn, UnorderedMap.emplace_of_find_eq_none (find_services_restrict_self c endpoint),
    UnorderedMap.find_assign]
  by_cases he : e = endpoint <;> simp [he, CheshireCat.restrict]

/-- A call of `join_clique` finds what it looks for, and answers whether the endpoint is new. -/
theorem Linked.join (hc : c.Linked) (now : ℤ) (endpoint uuid : Bytes) :
    ∃ c', c.joinClique now endpoint uuid = some (c', decide (c.services.find endpoint = none)) ∧ c'.Linked ∧
      ∀ e, c'.services.find e = if e = endpoint then some uuid else c.services.find e :=
  ⟨_, hc.joinClique_eq now endpoint uuid,
    (hc.restrict _).checkIn (find_services_restrict_self c endpoint) now uuid,
    find_services_joined c now endpoint uuid⟩

/-! ### Purging -/

/-- The check-in is too old to stay. -/
def Old (now maxAge : ℤ) (entry : CheckIn) : Prop := maxAge ≤ now - entry.time

instance (now maxAge : ℤ) (entry : CheckIn) : Decidable (Old now maxAge entry) :=
  inferInstanceAs (Decidable (maxAge ≤ now - entry.time))

/-- The loop goes up to the first check-in that is young enough. -/
theorem purgeLoop_eq (entries : List CheckIn) (c : CheshireCat) (dropped : Services)
    (honce : (entries.map CheckIn.service).Nodup)
    (hpresent : ∀ entry ∈ entries, c.services.find entry.service ≠ none)
    (hdropped : ∀ entry ∈ entries, dropped.find entry.service = none) :
    purgeLoop now maxAge entries c dropped =
      let gone := (entries.takeWhile (Old now maxAge ·)).map CheckIn.service
      some
        ({ c with
            services.find := fun e => if e ∈ gone then none else c.services.find e
            punchCard := entries.dropWhile (Old now maxAge ·)
            clique.find := fun e => if e ∈ gone then none else c.clique.find e },
          ⟨fun e => if e ∈ gone then c.services.find e else dropped.find e⟩) := by
  induction entries generalizing c dropped with
  | nil => simp [purgeLoop]
  | cons entry later ih =>
    rw [List.map_cons, List.nodup_cons] at honce
    obtain ⟨hentry, hlater⟩ := List.forall_mem_cons.mp hpresent
    obtain ⟨hnew, hnewer⟩ := List.forall_mem_cons.mp hdropped
    by_cases hold : Old now maxAge entry
    · obtain ⟨uuid, huuid⟩ := Option.ne_none_iff_exists'.mp hentry
      have hyoung : ¬now - entry.time < maxAge := not_lt.mpr hold
      -- no endpoint is on the card twice
      have hother : ∀ other ∈ later, other.service ≠ entry.service := fun other hother h =>
        honce.1 (List.mem_map.mpr ⟨other, hother, h⟩)
      rw [purgeLoop, if_neg hyoung, huuid]
      dsimp only
      rw [ih _ _ honce.2]
      · -- whoever goes first is gone from the maps before the loop looks at the others
        have hemplace := UnorderedMap.emplace_of_find_eq_none hnew uuid
        have hself : entry.service ∉ (later.takeWhile (Old now maxAge ·)).map CheckIn.service :=
          fun hmem => honce.1 ((List.takeWhile_sublist _).map _ |>.subset hmem)
        have hwhile : (entry :: later).takeWhile (Old now maxAge ·) =
            entry :: later.takeWhile (Old now maxAge ·) :=
          List.takeWhile_cons_of_pos (by simpa using hold)
        have hleft : (entry :: later).dropWhile (Old now maxAge ·) =
            later.dropWhile (Old now maxAge ·) :=
          List.dropWhile_cons_of_pos (by simpa using hold)
        simp only [hwhile, hleft, hemplace, List.map_cons, List.mem_cons, UnorderedMap.find_erase,
          UnorderedMap.find_assign]
        congr 4 <;> funext e <;> by_cases he : e = entry.service <;> simp [he, hself, huuid]
      · intro other hmem
        rw [UnorderedMap.find_erase_of_ne _ (hother other hmem)]
        exact hlater other hmem
      · intro other hmem
        rw [UnorderedMap.emplace_of_find_eq_none hnew,
          UnorderedMap.find_assign_of_ne _ _ (hother other hmem)]
        exact hnewer other hmem
    · have hyoung : now - entry.time < maxAge := not_le.mp hold
      simp [purgeLoop, hyoung, hold]

/-- As the check-ins are in order, the loop goes through exactly the old ones. -/
theorem mem_takeWhile_old {entries : List CheckIn}
    (hordered : entries.Pairwise fun entry later => entry.time ≤ later.time) (entry : CheckIn) :
    entry ∈ entries.takeWhile (Old now maxAge ·) ↔ entry ∈ entries ∧ Old now maxAge entry := by
  induction entries with
  | nil => simp
  | cons first later ih =>
    obtain ⟨hfirst, hlater⟩ := List.pairwise_cons.mp hordered
    by_cases hold : Old now maxAge first
    · rw [List.takeWhile_cons_of_pos (by simpa using hold), List.mem_cons, ih hlater, List.mem_cons]
      constructor
      · rintro (rfl | ⟨hmem, hentry⟩)
        · exact ⟨.inl rfl, hold⟩
        · exact ⟨.inr hmem, hentry⟩
      · rintro ⟨rfl | hmem, hentry⟩
        · exact .inl rfl
        · exact .inr ⟨hmem, hentry⟩
    · rw [List.takeWhile_cons_of_neg (by simpa using hold)]
      refine iff_of_false (List.not_mem_nil) ?_
      rintro ⟨hmem, hentry⟩
      -- whoever checked in after someone young is young
      have hle : first.time ≤ entry.time := by
        rcases List.mem_cons.mp hmem with rfl | hmem
        · exact le_refl _
        · exact hfirst entry hmem
      unfold Old at hold hentry
      omega

/-- What the loop leaves is what belongs to nobody it went through. -/
theorem dropWhile_eq_filter {entries : List CheckIn} (honce : (entries.map CheckIn.service).Nodup)
    (p : CheckIn → Bool) :
    entries.dropWhile p =
      entries.filter fun entry => entry.service ∉ (entries.takeWhile p).map CheckIn.service := by
  have hsplit := List.takeWhile_append_dropWhile (p := p) (l := entries)
  have hdisjoint : ((entries.takeWhile p).map CheckIn.service).Disjoint
      ((entries.dropWhile p).map CheckIn.service) := by
    rw [← hsplit, List.map_append] at honce
    exact List.disjoint_of_nodup_append honce
  have hfront : (entries.takeWhile p).filter
      (fun entry => entry.service ∉ (entries.takeWhile p).map CheckIn.service) = [] := by
    refine List.filter_eq_nil_iff.mpr fun entry hentry => ?_
    simpa using ⟨entry, hentry, rfl⟩
  have hback : (entries.dropWhile p).filter
      (fun entry => entry.service ∉ (entries.takeWhile p).map CheckIn.service) =
        entries.dropWhile p := by
    refine List.filter_eq_self.mpr fun entry hentry => ?_
    simpa using fun other hother heq =>
      hdisjoint (List.mem_map.mpr ⟨other, hother, heq⟩) (List.mem_map_of_mem hentry)
  rw [← congrArg (List.filter _) hsplit, List.filter_append, hfront, hback, List.nil_append]

/-- The check-in of this endpoint is too old. -/
def Stale (c : CheshireCat) (now maxAge : ℤ) (endpoint : Bytes) : Prop :=
  ∃ entry ∈ c.punchCard, entry.service = endpoint ∧ Old now maxAge entry

instance (c : CheshireCat) (now maxAge : ℤ) (endpoint : Bytes) :
    Decidable (c.Stale now maxAge endpoint) :=
  inferInstanceAs (Decidable (∃ entry ∈ c.punchCard, _))

/-- The loop of `purge_clique` goes through the check-in of this endpoint. -/
def Passed (c : CheshireCat) (now maxAge : ℤ) (endpoint : Bytes) : Prop :=
  endpoint ∈ (c.punchCard.takeWhile (Old now maxAge ·)).map CheckIn.service

instance (c : CheshireCat) (now maxAge : ℤ) (endpoint : Bytes) :
    Decidable (c.Passed now maxAge endpoint) :=
  inferInstanceAs (Decidable (endpoint ∈ (c.punchCard.takeWhile (Old now maxAge ·)).map CheckIn.service))

/-- Whoever the loop has gone through is gone from all containers, and nobody else. -/
theorem Linked.purgeClique_eq (hc : c.Linked) (now maxAge : ℤ) :
    c.purgeClique now maxAge =
      some
        (c.restrict fun e => ¬c.Passed now maxAge e,
          ⟨fun e => if c.Passed now maxAge e then c.services.find e else none⟩) := by
  have hpassed : ∀ e, e ∈ (c.punchCard.takeWhile (Old now maxAge ·)).map CheckIn.service ↔
      c.Passed now maxAge e := fun _ => .rfl
  rw [purgeClique, purgeLoop_eq c.punchCard c .empty hc.once, dropWhile_eq_filter hc.once]
  · simp [hpassed, CheshireCat.restrict]
  · exact fun entry hentry => hc.find_services_ne_none_iff.mpr ⟨entry, hentry, rfl⟩
  · exact fun _ _ => rfl

/-- A call of `purge_clique` finds what it looks for. Whoever is dropped was there, and the others stay. -/
theorem Linked.purge (hc : c.Linked) (now maxAge : ℤ) :
    ∃ c' dropped, c.purgeClique now maxAge = some (c', dropped) ∧ c'.Linked ∧
      (∀ e, dropped.find e ≠ none → c.services.find e ≠ none) ∧
      ∀ e, c'.services.find e ≠ none ↔ dropped.find e = none ∧ c.services.find e ≠ none := by
  refine ⟨_, _, hc.purgeClique_eq now maxAge, hc.restrict _, fun e he => ?_, fun e => ?_⟩
  · by_cases hpassed : c.Passed now maxAge e
    · simpa [hpassed] using he
    · simp [hpassed] at he
  · by_cases hpassed : c.Passed now maxAge e <;> simp [CheshireCat.restrict, hpassed]

/-- As the card is in order, the loop goes through exactly those who are stale. -/
theorem Consistent.passed_iff (hc : c.Consistent) : c.Passed now maxAge endpoint ↔ c.Stale now maxAge endpoint := by
  simp only [Passed, List.mem_map, mem_takeWhile_old hc.ordered, Stale]
  constructor
  · rintro ⟨entry, ⟨hentry, hold⟩, hservice⟩
    exact ⟨entry, hentry, hservice, hold⟩
  · rintro ⟨entry, hentry, hservice, hold⟩
    exact ⟨entry, ⟨hentry, hold⟩, hservice⟩

/-- Whoever is stale is gone from all containers, and nobody else. -/
theorem Consistent.purgeClique_eq (hc : c.Consistent) (now maxAge : ℤ) :
    c.purgeClique now maxAge =
      some
        (c.restrict fun e => ¬c.Stale now maxAge e,
          ⟨fun e => if c.Stale now maxAge e then c.services.find e else none⟩) := by
  rw [hc.toLinked.purgeClique_eq]
  simp only [hc.passed_iff]

/-! ### The latest check-ins -/

/-- The latest check-in of an endpoint in a sequence of calls: its time and its uuid. -/
def latest (endpoint : Bytes) (calls : List Call) : Option (ℤ × Bytes) :=
  calls.foldl
    (fun last call =>
      match call with
      | .join now e uuid => if e = endpoint then some (now, uuid) else last
      | .purge _ _ => last)
    none

/-- A check-in counts from now on for its endpoint, and changes nothing for the others. -/
theorem latest_concat_join (endpoint : Bytes) (calls : List Call) (now : ℤ) (e uuid : Bytes) :
    latest endpoint (calls ++ [.join now e uuid]) =
      if e = endpoint then some (now, uuid) else latest endpoint calls := by
  simp [latest]

/-- A purge is no check-in. -/
theorem latest_concat_purge (endpoint : Bytes) (calls : List Call) (now maxAge : ℤ) :
    latest endpoint (calls ++ [.purge now maxAge]) = latest endpoint calls := by
  simp [latest]

/-- The latest check-in is one of the calls. -/
theorem join_mem_of_latest {calls : List Call} {time : ℤ}
    (h : latest endpoint calls = some (time, uuid)) : .join time endpoint uuid ∈ calls := by
  -- the last of the calls decides, unless it is about another endpoint
  induction calls using List.reverseRecOn with
  | nil => simp [latest] at h
  | append_singleton calls call ih =>
    rw [List.mem_append]
    cases call with
    | purge now maxAge =>
      rw [latest_concat_purge] at h
      exact .inl (ih h)
    | join now e uuid' =>
      rw [latest_concat_join] at h
      split_ifs at h with he
      · obtain ⟨rfl, rfl⟩ : now = time ∧ uuid' = uuid := by simpa using h
        exact .inr (by simp [he])
      · exact .inl (ih h)

/-- The containers agree with each other and with the calls so far: every check-in on the card is the
latest of its endpoint, and whoever checked in and is not here was too old for a purge since. -/
structure Tracks (calls : List Call) (c : CheshireCat) : Prop extends c.Consistent where
  /-- Each check-in on the card has the time and the uuid of the latest call for its endpoint. -/
  recorded : ∀ entry ∈ c.punchCard, ∃ uuid,
    c.services.find entry.service = some uuid ∧ latest entry.service calls = some (entry.time, uuid)
  /-- An endpoint that has checked in and is not known was purged at an age the call did not allow. -/
  forgotten : ∀ endpoint time uuid, latest endpoint calls = some (time, uuid) →
    c.services.find endpoint = none → ∃ now maxAge, .purge now maxAge ∈ calls ∧ maxAge ≤ now - time

/-- At the start there is nothing to track. -/
theorem tracks_start : start.Tracks [] where
  toConsistent := consistent_start
  recorded := by simp [start]
  forgotten := by simp [latest]

variable {calls : List Call}

/-- Whoever is here is here under the latest uuid. -/
theorem Tracks.latest_of_find (hc : c.Tracks calls) (h : c.services.find endpoint = some uuid) :
    ∃ entry ∈ c.punchCard, entry.service = endpoint ∧
      latest endpoint calls = some (entry.time, uuid) := by
  have hhere : c.services.find endpoint ≠ none := Option.ne_none_iff_exists'.mpr ⟨uuid, h⟩
  obtain ⟨entry, hentry, rfl⟩ := hc.find_services_ne_none_iff.mp hhere
  obtain ⟨uuid', hfind, hlatest⟩ := hc.recorded entry hentry
  obtain rfl : uuid' = uuid := by simpa [hfind] using h
  exact ⟨entry, hentry, rfl, hlatest⟩

/-- Of those who are here, the stale ones are told by their latest check-in. -/
theorem Tracks.stale_iff (hc : c.Tracks calls) {time : ℤ} (hhere : c.services.find endpoint ≠ none)
    (hlatest : latest endpoint calls = some (time, uuid)) :
    c.Stale now maxAge endpoint ↔ maxAge ≤ now - time := by
  constructor
  · rintro ⟨entry, hentry, rfl, hold⟩
    obtain ⟨uuid', -, hrecorded⟩ := hc.recorded entry hentry
    obtain ⟨rfl, rfl⟩ : entry.time = time ∧ uuid' = uuid := by simpa [hrecorded] using hlatest
    exact hold
  · intro hold
    obtain ⟨entry, hentry, rfl⟩ := hc.find_services_ne_none_iff.mp hhere
    obtain ⟨uuid', -, hrecorded⟩ := hc.recorded entry hentry
    obtain ⟨rfl, rfl⟩ : entry.time = time ∧ uuid' = uuid := by simpa [hrecorded] using hlatest
    exact ⟨entry, hentry, rfl, hold⟩

/-- A call of `join_clique`: no iterator leads nowhere, and the answer tells whether they are new. -/
theorem Tracks.join (hc : c.Tracks calls) (hnow : ∀ call ∈ calls, call.now ≤ now)
    (endpoint uuid : Bytes) :
    ∃ c', c.joinClique now endpoint uuid = some (c', decide (c.services.find endpoint = none)) ∧
      c'.Tracks (calls ++ [.join now endpoint uuid]) := by
  have hlast : ∀ entry ∈ (c.restrict (· ≠ endpoint)).punchCard, entry.time ≤ now := by
    intro entry hentry
    obtain ⟨uuid', -, hlatest⟩ := hc.recorded entry (List.mem_of_mem_filter hentry)
    exact hnow _ (join_mem_of_latest hlatest)
  have hservices := find_services_joined c now endpoint uuid
  refine ⟨_, hc.joinClique_eq now endpoint uuid,
    (hc.toConsistent.restrict _).checkIn (find_services_restrict_self c endpoint) hlast uuid, ?_, ?_⟩
  · intro entry hentry
    rw [hservices, latest_concat_join]
    rcases List.mem_append.mp hentry with hentry | hentry
    · have hne : entry.service ≠ endpoint := by simpa using (List.mem_filter.mp hentry).2
      rw [if_neg hne, if_neg (Ne.symm hne)]
      exact hc.recorded entry (List.mem_of_mem_filter hentry)
    · obtain rfl := List.mem_singleton.mp hentry
      exact ⟨uuid, if_pos rfl, if_pos rfl⟩
  · intro e time uuid' hlatest hgone
    rw [hservices] at hgone
    rw [latest_concat_join] at hlatest
    by_cases he : e = endpoint
    · -- who has just checked in is here
      simp [he] at hgone
    · rw [if_neg he] at hgone
      rw [if_neg (Ne.symm he)] at hlatest
      obtain ⟨now', maxAge, hmem, hold⟩ := hc.forgotten e time uuid' hlatest hgone
      exact ⟨now', maxAge, List.mem_append_left _ hmem, hold⟩

/-- A call of `purge_clique`: no iterator leads nowhere, the stale ones are dropped, the others stay. -/
theorem Tracks.purge (hc : c.Tracks calls) (now maxAge : ℤ) :
    ∃ c' dropped, c.purgeClique now maxAge = some (c', dropped) ∧
      c'.Tracks (calls ++ [.purge now maxAge]) ∧
      (∀ e, c'.services.find e = if c.Stale now maxAge e then none else c.services.find e) ∧
      ∀ e, dropped.find e = if c.Stale now maxAge e then c.services.find e else none := by
  have hservices : ∀ e, (c.restrict fun e => ¬c.Stale now maxAge e).services.find e =
      if c.Stale now maxAge e then none else c.services.find e := by
    intro e
    by_cases he : c.Stale now maxAge e <;> simp [he, CheshireCat.restrict]
  refine ⟨_, _, hc.purgeClique_eq now maxAge, ⟨hc.restrict _, ?_, ?_⟩, hservices, fun _ => rfl⟩
  · intro entry hentry
    have hyoung : ¬c.Stale now maxAge entry.service := by simpa using (List.mem_filter.mp hentry).2
    rw [hservices, if_neg hyoung, latest_concat_purge]
    exact hc.recorded entry (List.mem_of_mem_filter hentry)
  · intro e time uuid hlatest hgone
    rw [latest_concat_purge] at hlatest
    rw [hservices] at hgone
    by_cases hhere : c.services.find e = none
    · -- an earlier purge took them out
      obtain ⟨now', maxAge', hmem, hold⟩ := hc.forgotten e time uuid hlatest hhere
      exact ⟨now', maxAge', List.mem_append_left _ hmem, hold⟩
    · have hstale : c.Stale now maxAge e := by
        by_contra hyoung
        rw [if_neg hyoung] at hgone
        exact hhere hgone
      exact ⟨now, maxAge, by simp, (hc.stale_iff hhere hlatest).mp hstale⟩

/-! ### Runs -/

/-- With a clock that does not go back, no call uses an iterator that leads nowhere, and the containers
agree after each. -/
theorem tracks_of_run (hclock : (calls.map Call.now).Pairwise (· ≤ ·)) :
    ∃ c, Transition.run step start calls = some c ∧ c.Tracks calls := by
  induction calls using List.reverseRecOn with
  | nil => exact ⟨start, rfl, tracks_start⟩
  | append_singleton calls call ih =>
    rw [List.map_append, List.pairwise_append] at hclock
    obtain ⟨hbefore, -, hlast⟩ := hclock
    obtain ⟨c, hrun, hc⟩ := ih hbefore
    -- the clock of the last call is the latest of all
    have hnow : ∀ earlier ∈ calls, earlier.now ≤ call.now := fun earlier hearlier =>
      hlast _ (List.mem_map_of_mem hearlier) _ (by simp)
    rw [Transition.run_concat, hrun, Option.bind_some]
    cases call with
    | join now endpoint uuid =>
      have hlatest : ∀ earlier ∈ calls, earlier.now ≤ now := hnow
      obtain ⟨c', hjoin, hc'⟩ := hc.join hlatest endpoint uuid
      exact ⟨c', by rw [step, hjoin]; rfl, hc'⟩
    | purge now maxAge =>
      obtain ⟨c', dropped, hpurge, hc', -, -⟩ := hc.purge now maxAge
      exact ⟨c', by rw [step, hpurge]; rfl, hc'⟩

/-- The latest check-in of the endpoint came with this uuid, and is young enough at this time. -/
def Young (calls : List Call) (now maxAge : ℤ) (endpoint uuid : Bytes) : Prop :=
  ∃ time, latest endpoint calls = some (time, uuid) ∧ now - time < maxAge

/-- What a purge leaves. -/
theorem Tracks.find_eq_some_iff (hc : c.Tracks calls) :
    (if c.Stale now maxAge endpoint then none else c.services.find endpoint) = some uuid ↔
      c.services.find endpoint ≠ none ∧ Young calls now maxAge endpoint uuid := by
  constructor
  · intro h
    split_ifs at h with hstale
    obtain ⟨entry, -, rfl, hlatest⟩ := hc.latest_of_find h
    have hhere : c.services.find entry.service ≠ none := Option.ne_none_iff_exists'.mpr ⟨uuid, h⟩
    refine ⟨hhere, entry.time, hlatest, ?_⟩
    rwa [hc.stale_iff hhere hlatest, not_le] at hstale
  · rintro ⟨hhere, time, hlatest, hyoung⟩
    obtain ⟨uuid', hfind⟩ := Option.ne_none_iff_exists'.mp hhere
    obtain ⟨entry, -, -, hlatest'⟩ := hc.latest_of_find hfind
    obtain ⟨-, rfl⟩ : entry.time = time ∧ uuid' = uuid := by simpa [hlatest'] using hlatest
    rw [if_neg, hfind]
    rwa [hc.stale_iff hhere hlatest, not_le]

/-- Where no purge so far went for younger ones, whoever is young enough is still here. -/
theorem Tracks.find_ne_none (hc : c.Tracks calls) (hclock : ∀ call ∈ calls, call.now ≤ now)
    (hages : ∀ now' maxAge', .purge now' maxAge' ∈ calls → maxAge ≤ maxAge')
    (hyoung : Young calls now maxAge endpoint uuid) : c.services.find endpoint ≠ none := by
  intro hgone
  obtain ⟨time, hlatest, hlt⟩ := hyoung
  obtain ⟨now', maxAge', hmem, hold⟩ := hc.forgotten endpoint time uuid hlatest hgone
  have hnow : now' ≤ now := hclock _ hmem
  have hage := hages now' maxAge' hmem
  omega

/-- In every run of the calls with a clock that does not go back, the containers agree. A call of
`join_clique` answers whether the endpoint is new. A call of `purge_clique` leaves exactly those of
the endpoints whose latest check-in is young enough, under its uuid, and returns exactly the others. If
no earlier purge went for younger ones, then what it leaves is everybody whose latest check-in is young
enough. -/
theorem view_of_run (hclock : (calls.map Call.now).Pairwise (· ≤ ·)) :
    ∃ c, Transition.run step start calls = some c ∧ c.Consistent ∧
      ∀ now, (∀ call ∈ calls, call.now ≤ now) →
        (∀ endpoint uuid, ∃ c',
          c.joinClique now endpoint uuid = some (c', decide (c.services.find endpoint = none))) ∧
        ∀ maxAge, ∃ c' dropped, c.purgeClique now maxAge = some (c', dropped) ∧
          (∀ endpoint uuid, c'.services.find endpoint = some uuid ↔
            c.services.find endpoint ≠ none ∧ Young calls now maxAge endpoint uuid) ∧
          (∀ endpoint uuid, dropped.find endpoint = some uuid ↔
            c.services.find endpoint = some uuid ∧ c'.services.find endpoint = none) ∧
          ((∀ now' maxAge', .purge now' maxAge' ∈ calls → maxAge ≤ maxAge') →
            ∀ endpoint uuid, c'.services.find endpoint = some uuid ↔
              Young calls now maxAge endpoint uuid) := by
  obtain ⟨c, hrun, hc⟩ := tracks_of_run hclock
  refine ⟨c, hrun, hc.toConsistent, fun now hnow => ⟨fun endpoint uuid => ?_, fun maxAge => ?_⟩⟩
  · obtain ⟨c', hjoin, -⟩ := hc.join hnow endpoint uuid
    exact ⟨c', hjoin⟩
  · obtain ⟨c', dropped, hpurge, -, hservices, hdropped⟩ := hc.purge now maxAge
    have hstay : ∀ endpoint uuid, c'.services.find endpoint = some uuid ↔
        c.services.find endpoint ≠ none ∧ Young calls now maxAge endpoint uuid := by
      intro endpoint uuid
      rw [hservices, hc.find_eq_some_iff]
    refine ⟨c', dropped, hpurge, hstay, fun endpoint uuid => ?_, fun hages endpoint uuid => ?_⟩
    · -- those that are returned are those that are stale
      rw [hdropped, hservices]
      by_cases hstale : c.Stale now maxAge endpoint
      · simp [hstale]
      · simpa [hstale] using fun h => by simp [h]
    · rw [hstay]
      exact and_iff_right_of_imp (hc.find_ne_none hnow hages)

/-- An endpoint checks in again, and another one grows too old. -/
def twoPeers : List Call :=
  [.join 0 (ascii "a") (ascii "u"), .join 1 (ascii "b") (ascii "v"), .join 50 (ascii "a") (ascii "w"),
    .purge 61 60]

/-- `view_of_run` for the two peers. -/
theorem view_of_run_twoPeers :
    ∃ c, Transition.run step start twoPeers = some c ∧ c.Consistent ∧
      ∀ now, (∀ call ∈ twoPeers, call.now ≤ now) →
        (∀ endpoint uuid, ∃ c',
          c.joinClique now endpoint uuid = some (c', decide (c.services.find endpoint = none))) ∧
        ∀ maxAge, ∃ c' dropped, c.purgeClique now maxAge = some (c', dropped) ∧
          (∀ endpoint uuid, c'.services.find endpoint = some uuid ↔
            c.services.find endpoint ≠ none ∧ Young twoPeers now maxAge endpoint uuid) ∧
          (∀ endpoint uuid, dropped.find endpoint = some uuid ↔
            c.services.find endpoint = some uuid ∧ c'.services.find endpoint = none) ∧
          ((∀ now' maxAge', .purge now' maxAge' ∈ twoPeers → maxAge ≤ maxAge') →
            ∀ endpoint uuid, c'.services.find endpoint = some uuid ↔
              Young twoPeers now maxAge endpoint uuid) :=
  view_of_run (by decide)

/-- A purge for younger ones leaves an endpoint out that a later purge would keep. -/
theorem not_young_iff_stays :
    ¬∀ (calls : List Call) (c : CheshireCat) (now maxAge : ℤ) (c' : CheshireCat) (dropped : Services),
      (calls.map Call.now).Pairwise (· ≤ ·) → (∀ call ∈ calls, call.now ≤ now) →
      Transition.run step start calls = some c → c.purgeClique now maxAge = some (c', dropped) →
      ∀ endpoint uuid, c'.services.find endpoint = some uuid ↔
        Young calls now maxAge endpoint uuid := by
  intro h
  have hstays := h [.join 0 (ascii "a") (ascii "u"), .purge 0 0] _ 0 60 _ _ (by decide) (by decide)
    rfl rfl (ascii "a") (ascii "u")
  exact absurd (hstays.mpr ⟨0, rfl, by decide⟩) (by decide)

/-! ### Updates -/

/-- Who a frame from an address checks in, if it has the right size and header: the endpoint and the
uuid. -/
def hail (ip frame : Bytes) : Option (Bytes × Bytes) :=
  if frame.length = 22 ∧ frame.take 4 = ascii "ZRE\x01" then
    let port := (frame.getD 20 0).toNat * 256 + (frame.getD 21 0).toNat
    some (ascii "tcp://" ++ ip ++ ascii ":" ++ decimal port, (frame.drop 4).take 16)
  else none

/-- A call of `beacon_t::update`. -/
structure Update where
  /-- The address and the frame that the actor hands over, if there is activity. -/
  activity : Option (Bytes × Bytes)
  /-- The time of `join_clique`. -/
  joinTime : ℤ
  /-- The time of `purge_clique`. -/
  purgeTime : ℤ

/-- Who checks in. -/
def Update.hail (u : Update) : Option (Bytes × Bytes) :=
  u.activity.bind fun (ip, frame) => CheshireCat.hail ip frame

/-- `beacon_t::update`, with who joined and who was dropped. -/
def update (c : CheshireCat) (u : Update) : Option (CheshireCat × Services × Services) :=
  match u.hail with
  | none => (c.purgeClique u.purgeTime 60).map fun (c, dropped) => (c, .empty, dropped)
  | some (endpoint, uuid) =>
    (c.joinClique u.joinTime endpoint uuid).bind fun (c, isNew) =>
      (c.purgeClique u.purgeTime 60).map fun (c, dropped) =>
        (c, if isNew then UnorderedMap.emplace .empty endpoint uuid else .empty, dropped)

/-- The calls of an update. -/
def Update.toCalls (u : Update) : List Call :=
  match u.hail with
  | none => [.purge u.purgeTime 60]
  | some (endpoint, uuid) => [.join u.joinTime endpoint uuid, .purge u.purgeTime 60]

/-- An update is a check-in, if there was an announcement, and then a purge. -/
theorem map_update (c : CheshireCat) (u : Update) :
    (c.update u).map Prod.fst = Transition.run step c u.toCalls := by
  rw [update, Update.toCalls]
  cases u.hail with
  | none => cases hpurge : c.purgeClique u.purgeTime 60 <;> simp [Transition.run_cons, step, hpurge]
  | some peer =>
    cases hjoin : c.joinClique u.joinTime peer.1 peer.2 with
    | none => simp [Transition.run_cons, step, hjoin]
    | some r => cases hpurge : r.1.purgeClique u.purgeTime 60 <;>
        simp [Transition.run_cons, step, hjoin, hpurge]

/-- A run of updates is a run of their calls. -/
theorem run_update (c : CheshireCat) (us : List Update) :
    Transition.run (fun c u => (c.update u).map Prod.fst) c us =
      Transition.run step c (us.flatMap Update.toCalls) := by
  induction us generalizing c with
  | nil => rfl
  | cons u us ih =>
    rw [Transition.run_cons, List.flatMap_cons, Transition.run_append, map_update]
    congr 1
    funext c'
    exact ih c'

/-- Updates always purge those of the same age. So after each one the services are exactly those whose
latest check-in is not a minute old, under its uuid. -/
theorem services_of_updates {us : List Update} {u : Update}
    (hclock : (((us ++ [u]).flatMap Update.toCalls).map Call.now).Pairwise (· ≤ ·)) :
    ∃ c, Transition.run (fun c u => (c.update u).map Prod.fst) start (us ++ [u]) = some c ∧
      c.Consistent ∧
      ∀ endpoint uuid, c.services.find endpoint = some uuid ↔
        Young ((us ++ [u]).flatMap Update.toCalls) u.purgeTime 60 endpoint uuid := by
  have hages : ∀ u : Update, ∀ now maxAge, .purge now maxAge ∈ u.toCalls → maxAge = 60 := by
    intro u now maxAge hmem
    rw [Update.toCalls] at hmem
    split at hmem <;> simp_all
  -- the last call of the last update is the purge
  obtain ⟨before, hbefore⟩ : ∃ before,
      (us ++ [u]).flatMap Update.toCalls = before ++ [.purge u.purgeTime 60] := by
    cases hhail : u.hail with
    | none =>
      refine ⟨us.flatMap Update.toCalls, ?_⟩
      simp [Update.toCalls, hhail]
    | some peer =>
      refine ⟨us.flatMap Update.toCalls ++ [.join u.joinTime peer.1 peer.2], ?_⟩
      simp [Update.toCalls, hhail]
  rw [hbefore, List.map_append, List.pairwise_append] at hclock
  obtain ⟨hearlier, -, hlast⟩ := hclock
  obtain ⟨c, hrun, hc⟩ := tracks_of_run hearlier
  obtain ⟨c', dropped, hpurge, hc', hservices, -⟩ := hc.purge u.purgeTime 60
  refine ⟨c', ?_, hc'.toConsistent, fun endpoint uuid => ?_⟩
  · rw [run_update, hbefore, Transition.run_concat, hrun, Option.bind_some, step, hpurge]
    rfl
  · have hnow : ∀ call ∈ before, call.now ≤ u.purgeTime := fun call hcall =>
      hlast _ (List.mem_map_of_mem hcall) _ (by simp [Call.now])
    have hsame : ∀ now maxAge, .purge now maxAge ∈ before → 60 ≤ maxAge := by
      intro now maxAge hmem
      obtain ⟨u', -, hmem'⟩ : ∃ u' ∈ us ++ [u], .purge now maxAge ∈ u'.toCalls := by
        rw [← List.mem_flatMap, hbefore]
        exact List.mem_append_left _ hmem
      exact (hages u' now maxAge hmem').ge
    rw [hservices, hc.find_eq_some_iff, hbefore]
    have hyoung : Young (before ++ [.purge u.purgeTime 60]) u.purgeTime 60 endpoint uuid ↔
        Young before u.purgeTime 60 endpoint uuid := by
      simp only [Young, latest_concat_purge]
    rw [hyoung]
    exact and_iff_right_of_imp (hc.find_ne_none hnow hsame)

end CheshireCat

end PrimeServer
