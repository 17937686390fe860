import PrimeServer.Discovery.Clique

/-!
# Beacons

Services announce themselves with `beacon_t::broadcast`, and whoever listens calls `beacon_t::update` for
each announcement. Each call returns who has joined and who was dropped.

## Main results

* `CheshireCat.hail_eq_some_iff`: what `update` accepts is what `broadcast` sends;
* `CheshireCat.services_of_broadcasts`: a listener knows exactly the services that it has heard from in the
  last minute;
* `CheshireCat.known_of_watch`: who keeps the books by what the calls return, keeps the same books.
-/

namespace PrimeServer

/-- A service that announces itself. -/
structure Peer where
  ip : Bytes
  port : UInt16
  deriving DecidableEq

/-- The address under which a service joins. -/
def Peer.endpoint (p : Peer) : Bytes := ascii "tcp://" ++ p.ip ++ ascii ":" ++ decimal p.port.toNat

/-- The bytes of `htons(port)`. -/
def networkOrder (port : UInt16) : Bytes := [.ofNat (port.toNat / 256), .ofNat port.toNat]

/-- The message that `beacon_t::broadcast` makes with a random uuid of 16 characters. -/
def broadcast (uuid : Bytes) (servicePort : UInt16) : Bytes :=
  ascii "ZRE\x01" ++ uuid ++ networkOrder servicePort

/-- Two texts with the last colon in one place. -/
theorem append_colon_inj {s t digits digits' : Bytes} (hdigits : byte ':' ∉ digits)
    (hdigits' : byte ':' ∉ digits') (h : s ++ byte ':' :: digits = t ++ byte ':' :: digits') :
    s = t ∧ digits = digits' := by
  rcases List.append_eq_append_iff.mp h with ⟨u, rfl, hu⟩ | ⟨u, rfl, hu⟩
  all_goals
    cases u with
    | nil => simp_all
    | cons b u =>
      -- the digits after one colon would have the other one among them
      obtain ⟨-, rfl⟩ := List.cons.inj hu
      simp at hdigits hdigits'

/-- A port that is written out has no colon in it, so that an endpoint can be split again at its last one. -/
theorem colon_not_mem_decimal (n : ℕ) : byte ':' ∉ decimal n := fun h =>
  absurd (mem_decimal h).2 (by decide)

/-- Two numbers that are written in the same way are the same: the ports of equal endpoints are. -/
theorem decimal_inj {n m : ℕ} (hn : n < 2 ^ 64) (hm : m < 2 ^ 64) (h : decimal n = decimal m) : n = m := by
  have hsame := stoul_decimal hn
  rw [h, stoul_decimal hm] at hsame
  exact (Except.ok.inj hsame).symm

/-- Different services have different endpoints. -/
theorem Peer.endpoint_inj {p q : Peer} (h : p.endpoint = q.endpoint) : p = q := by
  have hsplit : ∀ r : Peer, r.endpoint =
      (ascii "tcp://" ++ r.ip) ++ byte ':' :: decimal r.port.toNat := by
    intro r
    simp only [endpoint, List.append_assoc]
    rfl
  rw [hsplit, hsplit] at h
  obtain ⟨hip, hport⟩ := append_colon_inj (colon_not_mem_decimal _) (colon_not_mem_decimal _) h
  have hlt : ∀ r : Peer, r.port.toNat < 2 ^ 64 := fun r => by
    have := r.port.toNat_lt
    omega
  have hport' := UInt16.toNat_inj.mp (decimal_inj (hlt p) (hlt q) hport)
  cases p
  cases q
  simp_all

/-- Any two bytes are some port. -/
theorem networkOrder_ofNat (a b : UInt8) :
    networkOrder (.ofNat (a.toNat * 256 + b.toNat)) = [a, b] := by
  have ha := a.toNat_lt
  have hb := b.toNat_lt
  have hport : (UInt16.ofNat (a.toNat * 256 + b.toNat)).toNat = a.toNat * 256 + b.toNat :=
    UInt16.toNat_ofNat_of_lt' (show _ < 2 ^ 16 by omega)
  have hhigh : (a.toNat * 256 + b.toNat) / 256 = a.toNat := by omega
  rw [networkOrder, hport, hhigh, UInt8.ofNat_toNat]
  congr 2
  rw [← UInt8.toNat_inj]
  simp

/-- Reading a port in network order gives it back. -/
theorem toNat_networkOrder (port : UInt16) :
    ((networkOrder port).getD 0 0).toNat * 256 + ((networkOrder port).getD 1 0).toNat = port.toNat := by
  have := port.toNat_lt
  simp [networkOrder]
  omega

namespace CheshireCat

/-- What a service broadcasts checks it in. -/
theorem hail_broadcast (ip : Bytes) {uuid : Bytes} (huuid : uuid.length = 16) (port : UInt16) :
    hail ip (broadcast uuid port) = some ((Peer.mk ip port).endpoint, uuid) := by
  have hheader : (ascii "ZRE\x01").length = 4 := rfl
  have hlength : (ascii "ZRE\x01" ++ uuid).length = 20 := by rw [List.length_append, hheader, huuid]
  have hframe : broadcast uuid port = ascii "ZRE\x01" ++ (uuid ++ networkOrder port) := by
    rw [broadcast, List.append_assoc]
  have hsize : (broadcast uuid port).length = 22 := by
    rw [broadcast, List.length_append, hlength]
    rfl
  have hfirst : (broadcast uuid port).take 4 = ascii "ZRE\x01" := by
    rw [hframe]
    exact List.take_left' hheader
  have hbody : ((broadcast uuid port).drop 4).take 16 = uuid := by
    rw [hframe, List.drop_left' hheader]
    exact List.take_left' huuid
  have hlast : ∀ k, (broadcast uuid port).getD (20 + k) 0 = (networkOrder port).getD k 0 := by
    intro k
    rw [broadcast, List.getD_eq_getElem?_getD, List.getElem?_append_right (by omega), hlength,
      Nat.add_sub_cancel_left, List.getD_eq_getElem?_getD]
  rw [hail, if_pos ⟨hsize, hfirst⟩, hlast 0, hlast 1, toNat_networkOrder, hbody]
  rfl

/-- A frame checks somebody in exactly if it is what a service broadcasts: the endpoint is made of the address
that it came from and of its port. -/
theorem hail_eq_some_iff {ip frame endpoint uuid : Bytes} :
    hail ip frame = some (endpoint, uuid) ↔
      ∃ port, uuid.length = 16 ∧ frame = broadcast uuid port ∧ endpoint = (Peer.mk ip port).endpoint := by
  constructor
  · intro h
    have hsome := h
    unfold hail at h
    split_ifs at h with hframe
    obtain ⟨hlength, hheader⟩ := hframe
    obtain ⟨-, rfl⟩ := by simpa using h
    -- the port is in the last two bytes
    obtain ⟨a, b, hlast⟩ : ∃ a b, frame.drop 20 = [a, b] := List.length_eq_two.mp (by simp [hlength])
    have huuid : ((frame.drop 4).take 16).length = 16 := by simp [hlength]
    have hparts : frame = broadcast ((frame.drop 4).take 16) (.ofNat (a.toNat * 256 + b.toNat)) := by
      rw [broadcast, networkOrder_ofNat, ← hlast, ← hheader, List.append_assoc]
      have hrest : (frame.drop 4).take 16 ++ frame.drop 20 = frame.drop 4 := by
        have hsplit := List.take_append_drop 16 (frame.drop 4)
        rwa [List.drop_drop] at hsplit
      rw [hrest, List.take_append_drop]
    rw [hparts, hail_broadcast ip huuid, Option.some.injEq, Prod.mk.injEq] at hsome
    exact ⟨_, huuid, hparts, hsome.1.symm⟩
  · rintro ⟨port, huuid, rfl, rfl⟩
    exact hail_broadcast ip huuid port

/-! ### What a listener hears -/

/-- The update is for an announcement of the service. -/
def Update.Hears (u : Update) (p : Peer) (uuid : Bytes) : Prop :=
  uuid.length = 16 ∧ u.activity = some (p.ip, broadcast uuid p.port)

/-- The latest announcement of the service among those of the updates came at this time. -/
def HeardLast (p : Peer) (us : List Update) (time : ℤ) (uuid : Bytes) : Prop :=
  ∃ before u after, us = before ++ u :: after ∧ u.Hears p uuid ∧ u.joinTime = time ∧
    ∀ v ∈ after, ∀ uuid', ¬v.Hears p uuid'

/-- `update` takes a frame for an announcement exactly if it is one of a peer, and puts address and port together for
it. -/
theorem hail_eq_some_iff_hears {u : Update} {endpoint uuid : Bytes} :
    u.hail = some (endpoint, uuid) ↔ ∃ p : Peer, endpoint = p.endpoint ∧ u.Hears p uuid := by
  constructor
  · intro h
    obtain ⟨⟨ip, frame⟩, hactivity, hhail⟩ := Option.bind_eq_some_iff.mp h
    obtain ⟨port, huuid, rfl, rfl⟩ := hail_eq_some_iff.mp hhail
    exact ⟨⟨ip, port⟩, rfl, huuid, hactivity⟩
  · rintro ⟨p, rfl, huuid, hactivity⟩
    rw [Update.hail, hactivity]
    exact hail_broadcast p.ip huuid p.port

/-- The last announcement of a peer is in the last update, or that one has none and it came before. -/
theorem heardLast_concat {p : Peer} {us : List Update} {u : Update} {time : ℤ} {uuid : Bytes} :
    HeardLast p (us ++ [u]) time uuid ↔
      (u.Hears p uuid ∧ u.joinTime = time) ∨
        ((∀ uuid', ¬u.Hears p uuid') ∧ HeardLast p us time uuid) := by
  constructor
  · rintro ⟨before, v, after, hsplit, hhears, htime, hlater⟩
    rcases List.eq_nil_or_concat after with rfl | ⟨after, w, rfl⟩
    · obtain ⟨-, rfl⟩ : us = before ∧ u = v := by simpa using hsplit
      exact Or.inl ⟨hhears, htime⟩
    · have hsplit' : us ++ [u] = (before ++ v :: after) ++ [w] := by simpa using hsplit
      obtain ⟨rfl, hlast⟩ := List.append_inj' hsplit' rfl
      obtain rfl := List.singleton_inj.mp hlast
      refine Or.inr ⟨hlater u (by simp), before, v, after, rfl, hhears, htime, fun w hw => ?_⟩
      exact hlater w (by simp [hw])
  · rintro (⟨hhears, htime⟩ | ⟨hnot, before, v, after, rfl, hhears, htime, hlater⟩)
    · exact ⟨us, u, [], rfl, hhears, htime, by simp⟩
    · refine ⟨before, v, after ++ [u], by simp, hhears, htime, fun w hw => ?_⟩
      rcases List.mem_append.mp hw with hw | hw
      · exact hlater w hw
      · obtain rfl := List.mem_singleton.mp hw
        exact hnot

/-- The check-in that counts after an update is the one in it, if the announcement is of this endpoint. -/
theorem latest_concat_toCalls (endpoint : Bytes) (calls : List Call) (u : Update) :
    latest endpoint (calls ++ u.toCalls) =
      match u.hail with
      | none => latest endpoint calls
      | some (e, uuid) => if e = endpoint then some (u.joinTime, uuid) else latest endpoint calls := by
  cases hhail : u.hail with
  | none => simp only [Update.toCalls, hhail, latest_concat_purge]
  | some peer =>
    have hcalls : calls ++ u.toCalls =
        (calls ++ [.join u.joinTime peer.1 peer.2]) ++ [.purge u.purgeTime 60] := by
      simp [Update.toCalls, hhail]
    simp only [hcalls, latest_concat_purge, latest_concat_join]

/-- The latest check-in of an endpoint is the latest announcement of the service that it belongs to. -/
theorem latest_eq_some_iff {p : Peer} {us : List Update} {time : ℤ} {uuid : Bytes} :
    latest p.endpoint (us.flatMap Update.toCalls) = some (time, uuid) ↔ HeardLast p us time uuid := by
  induction us using List.reverseRecOn with
  | nil =>
    refine iff_of_false (by simp [latest]) ?_
    rintro ⟨before, u, after, hsplit, -⟩
    simp at hsplit
  | append_singleton us u ih =>
    rw [List.flatMap_append, List.flatMap_singleton, latest_concat_toCalls, heardLast_concat]
    cases hhail : u.hail with
    | none =>
      have hnot : ∀ uuid', ¬u.Hears p uuid' := by
        intro uuid' hhears
        rw [hail_eq_some_iff_hears.mpr ⟨p, rfl, hhears⟩] at hhail
        cases hhail
      simpa [hnot] using ih
    | some peer =>
      obtain ⟨e, uuid'⟩ := peer
      obtain ⟨q, rfl, hq⟩ := hail_eq_some_iff_hears.mp hhail
      -- an announcement is for one service only
      have hears_iff : ∀ (r : Peer) uuid'', u.Hears r uuid'' ↔ r = q ∧ uuid'' = uuid' := by
        intro r uuid''
        constructor
        · intro hr
          rw [hail_eq_some_iff_hears.mpr ⟨r, rfl, hr⟩] at hhail
          obtain ⟨hendpoint, rfl⟩ := by simpa using hhail
          exact ⟨Peer.endpoint_inj hendpoint, rfl⟩
        · rintro ⟨rfl, rfl⟩
          exact hq
      by_cases hpq : p = q
      · subst hpq
        simp only [hears_iff, if_true, Option.some.injEq, Prod.mk.injEq, true_and]
        constructor
        · rintro ⟨htime, huuid⟩
          exact Or.inl ⟨huuid.symm, htime⟩
        · rintro (⟨huuid, htime⟩ | ⟨hnot, -⟩)
          · exact ⟨htime, huuid.symm⟩
          · exact absurd rfl (hnot uuid')
      · have hne : q.endpoint ≠ p.endpoint := fun h => hpq (Peer.endpoint_inj h).symm
        simpa [hears_iff, hpq, hne] using ih

/-- After each update, whatever frames have come, a listener knows exactly the services whose latest
announcement is not a minute old, each under the uuid of that announcement. -/
theorem services_of_broadcasts {us : List Update} {u : Update}
    (hclock : (((us ++ [u]).flatMap Update.toCalls).map Call.now).Pairwise (· ≤ ·)) :
    ∃ c, Transition.run (fun c u => (c.update u).map Prod.fst) start (us ++ [u]) = some c ∧
      (∀ (p : Peer) uuid, c.services.find p.endpoint = some uuid ↔
        ∃ time, HeardLast p (us ++ [u]) time uuid ∧ u.purgeTime - time < 60) ∧
      ∀ endpoint, c.services.find endpoint ≠ none → ∃ p : Peer, endpoint = p.endpoint := by
  obtain ⟨c, hrun, -, hservices⟩ := services_of_updates hclock
  refine ⟨c, hrun, fun p uuid => ?_, fun endpoint hhere => ?_⟩
  · rw [hservices]
    simp only [Young, latest_eq_some_iff]
  · obtain ⟨uuid, hfind⟩ := Option.ne_none_iff_exists'.mp hhere
    obtain ⟨time, hlatest, -⟩ := (hservices endpoint uuid).mp hfind
    -- whoever has checked in was heard in one of the updates
    obtain ⟨v, -, hcall⟩ := List.mem_flatMap.mp (join_mem_of_latest hlatest)
    cases hhail : v.hail with
    | none => simp [Update.toCalls, hhail] at hcall
    | some peer =>
      obtain ⟨e, uuid'⟩ := peer
      obtain ⟨-, rfl, -⟩ := by simpa [Update.toCalls, hhail] using hcall
      obtain ⟨p, hp, -⟩ := hail_eq_some_iff_hears.mp hhail
      exact ⟨p, hp⟩

/-- Two services announce themselves, and one of them again. Another frame is no announcement. -/
def twoServices : List Update :=
  [⟨some (ascii "10.0.0.1", broadcast (ascii "aaaaaaaaaaaaaaaa") 80), 0, 0⟩,
    ⟨some (ascii "10.0.0.2", broadcast (ascii "bbbbbbbbbbbbbbbb") 443), 1, 1⟩,
    ⟨some (ascii "10.0.0.2", ascii "ZRE"), 30, 30⟩,
    ⟨some (ascii "10.0.0.1", broadcast (ascii "cccccccccccccccc") 80), 50, 50⟩]

/-- `services_of_broadcasts` after a minute without further announcements. -/
theorem services_of_broadcasts_twoServices :
    ∃ c, Transition.run (fun c u => (c.update u).map Prod.fst) start (twoServices ++ [⟨none, 62, 62⟩]) =
        some c ∧
      (∀ (p : Peer) uuid, c.services.find p.endpoint = some uuid ↔
        ∃ time, HeardLast p (twoServices ++ [⟨none, 62, 62⟩]) time uuid ∧ 62 - time < 60) ∧
      ∀ endpoint, c.services.find endpoint ≠ none → ∃ p : Peer, endpoint = p.endpoint :=
  services_of_broadcasts (by decide)

/-! ### Keeping the books from outside -/

/-- A beacon, and the books that a user keeps by what `update` returns. -/
structure Watched where
  /-- The beacon. -/
  cat : CheshireCat
  /-- What the user has added and removed by the two sets that each `update` returned. -/
  known : UnorderedSet Bytes

/-- Whoever has joined is known, and whoever was dropped is not known any more. -/
def follow (known : UnorderedSet Bytes) (joined dropped : Services) : UnorderedSet Bytes where
  find e := if dropped.find e = none ∧ (known.Contains e ∨ joined.find e ≠ none) then some () else none

/-- What is known after an update: what was known or has joined, without what was dropped. -/
theorem contains_follow {known : UnorderedSet Bytes} {joined dropped : Services} {e : Bytes} :
    (follow known joined dropped).Contains e ↔
      dropped.find e = none ∧ (known.Contains e ∨ joined.find e ≠ none) := by
  show (if _ then some () else none) ≠ none ↔ _
  split_ifs with h
  · exact iff_of_true (by simp) h
  · exact iff_of_false (by simp) h

/-- An update, and the books after it. -/
def watch (w : Watched) (u : Update) : Option Watched :=
  (w.cat.update u).map fun (cat, joined, dropped) => ⟨cat, follow w.known joined dropped⟩

/-- Who comes and who goes in an update, at whatever times: nobody joins who was there, nobody is dropped who
was neither there nor has joined, and the services change by these. -/
theorem Linked.update {c : CheshireCat} (hc : c.Linked) (u : Update) :
    ∃ c' joined dropped, c.update u = some (c', joined, dropped) ∧ c'.Linked ∧
      (∀ e, joined.find e ≠ none → c.services.find e = none) ∧
      (∀ e, dropped.find e ≠ none → c.services.find e ≠ none ∨ joined.find e ≠ none) ∧
      ∀ e, c'.services.find e ≠ none ↔
        dropped.find e = none ∧ (c.services.find e ≠ none ∨ joined.find e ≠ none) := by
  cases hhail : u.hail with
  | none =>
    obtain ⟨c', dropped, hpurge, hc', hdropped, hservices⟩ := hc.purge u.purgeTime 60
    refine ⟨c', .empty, dropped, ?_, hc', by simp, fun e he => Or.inl (hdropped e he), fun e => ?_⟩
    · simp only [CheshireCat.update, hhail, hpurge, Option.map_some]
    · simpa using hservices e
  | some peer =>
    obtain ⟨endpoint, uuid⟩ := peer
    obtain ⟨c₁, hjoin, hc₁, hfind⟩ := hc.join u.joinTime endpoint uuid
    obtain ⟨c₂, dropped, hpurge, hc₂, hdropped, hservices⟩ := hc₁.purge u.purgeTime 60
    let joined : Services :=
      if c.services.find endpoint = none then UnorderedMap.emplace .empty endpoint uuid else .empty
    -- a service that checks in again does not join
    have hjoined : ∀ e, joined.find e ≠ none ↔ e = endpoint ∧ c.services.find e = none := by
      intro e
      by_cases habsent : c.services.find endpoint = none
      · have hempty : (UnorderedMap.empty : Services).find endpoint = none := by simp
        simp only [joined, if_pos habsent, UnorderedMap.emplace_of_find_eq_none hempty,
          UnorderedMap.find_assign]
        by_cases he : e = endpoint <;> simp [he, habsent]
      · simp only [joined, if_neg habsent]
        refine iff_of_false (by simp) ?_
        rintro ⟨rfl, hgone⟩
        exact habsent hgone
    have hthere : ∀ e, c₁.services.find e ≠ none ↔
        c.services.find e ≠ none ∨ joined.find e ≠ none := by
      intro e
      rw [hfind, hjoined]
      by_cases he : e = endpoint
      · subst he
        by_cases hgone : c.services.find e = none <;> simp [hgone]
      · simp [he]
    refine ⟨c₂, joined, dropped, ?_, hc₂, fun e he => ((hjoined e).mp he).2,
      fun e he => (hthere e).mp (hdropped e he), fun e => ?_⟩
    · simp only [CheshireCat.update, hhail, hjoin, Option.bind_some, hpurge, Option.map_some,
        decide_eq_true_eq, joined]
    · rw [hservices, hthere]

/-- The containers refer to each other, and the books agree with the services. -/
structure Watched.Agrees (w : Watched) : Prop where
  /-- The three containers of the beacon refer to each other. -/
  linked : w.cat.Linked
  /-- The user knows exactly the services that the beacon has. -/
  known : ∀ e, w.known.Contains e ↔ w.cat.services.find e ≠ none

/-- At the start nobody is known and there are no services. -/
theorem agrees_start : Watched.Agrees ⟨start, .empty⟩ where
  linked := linked_start
  known e := iff_of_false (by simp [UnorderedSet.Contains]) (by simp [start])

/-- An update finds what it looks for, and the books agree with the services after it. -/
theorem Watched.Agrees.watch {w : Watched} (hw : w.Agrees) (u : Update) :
    ∃ w', CheshireCat.watch w u = some w' ∧ w'.Agrees := by
  obtain ⟨cat, joined, dropped, hupdate, hcat, -, -, hservices⟩ := hw.linked.update u
  refine ⟨⟨cat, follow w.known joined dropped⟩, ?_, hcat, fun e => ?_⟩
  · rw [CheshireCat.watch, hupdate]
    rfl
  · rw [contains_follow, hw.known, ← hservices]

/-- The books agree with the services after every run. -/
theorem agrees_of_run (us : List Update) :
    ∃ w, Transition.run watch ⟨start, .empty⟩ us = some w ∧ w.Agrees := by
  induction us using List.reverseRecOn with
  | nil => exact ⟨⟨start, .empty⟩, rfl, agrees_start⟩
  | append_singleton us u ih =>
    obtain ⟨w, hrun, hw⟩ := ih
    obtain ⟨w', hwatch, hw'⟩ := hw.watch u
    exact ⟨w', Transition.run_concat_eq_some.mpr ⟨w, hrun, hwatch⟩, hw'⟩

/-- Whoever keeps the books by who has joined and who was dropped, knows exactly the services that are there,
after every run of updates, whatever the clock says. Nobody joins who is known, and nobody is dropped who is not
known and has not just joined. -/
theorem known_of_watch (us : List Update) :
    ∃ w, Transition.run watch ⟨start, .empty⟩ us = some w ∧
      (∀ e, w.known.Contains e ↔ w.cat.services.find e ≠ none) ∧
      ∀ u, ∃ cat joined dropped, w.cat.update u = some (cat, joined, dropped) ∧
        (∀ e, joined.find e ≠ none → ¬w.known.Contains e) ∧
          ∀ e, dropped.find e ≠ none → w.known.Contains e ∨ joined.find e ≠ none := by
  obtain ⟨w, hrun, hw⟩ := agrees_of_run us
  refine ⟨w, hrun, hw.known, fun u => ?_⟩
  obtain ⟨cat, joined, dropped, hupdate, -, hnew, hold, -⟩ := hw.linked.update u
  refine ⟨cat, joined, dropped, hupdate, fun e he hknown => (hw.known e).mp hknown (hnew e he), fun e he => ?_⟩
  exact (hold e he).imp_left (hw.known e).mpr

end CheshireCat

end PrimeServer
