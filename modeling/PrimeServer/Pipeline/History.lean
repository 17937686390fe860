import PrimeServer.Pipeline.Worker

/-!
# The interrupt history of a worker

`interrupts` is a set for looking up keys, `interrupt_history` the list of all keys received, from whose
front `work` culls the old ones. The time since which a key is too young to be culled is computed in 32
bits, and comes out far in the future in the first ten minutes of the epoch.

## Main results

* `Worker.remembers_of_notes`: what is remembered after any receipts and culls;
* `Worker.remembers_of_run`: the same for a run of the worker.
-/

namespace PrimeServer

namespace Worker

variable {w : Worker}

/-- What happens to the interrupts that a worker knows of. -/
inductive Note where
  /-- `handle_interrupt` receives keys. -/
  | received (keys : List UInt64)
  /-- `work` culls off the old ones at this time. -/
  | culled (now : ℕ)
  deriving DecidableEq

/-- Cull off the old ones at a time. -/
def cullAt (w : Worker) (now : ℕ) : Worker :=
  let (interruptHistory, interrupts) :=
    cull (.ofNat now - interruptAgeCutoff) w.interruptHistory w.interrupts
  { w with interrupts, interruptHistory }

/-- The effect of a note. -/
def note (w : Worker) : Note → Worker
  | .received keys => w.remember keys
  | .culled now => w.cullAt now

/-- The effect of notes in order. -/
def noteAll (w : Worker) (notes : List Note) : Worker := notes.foldl note w

/-- The time stamp of a key. -/
def stampOf (key : UInt64) : ℕ := (key >>> 32).toNat

/-- The time stamp of the key is more than the cutoff in the past. -/
def Old (now : ℕ) (key : UInt64) : Prop := stampOf key + interruptAgeCutoff.toNat < now

instance (now : ℕ) (key : UInt64) : Decidable (Old now key) :=
  inferInstanceAs (Decidable (stampOf key + interruptAgeCutoff.toNat < now))

/-- The time since which a key is too young does not wrap around. -/
def Dated (now : ℕ) : Prop := interruptAgeCutoff.toNat ≤ now ∧ now < 2 ^ 32

instance (now : ℕ) : Decidable (Dated now) :=
  inferInstanceAs (Decidable (interruptAgeCutoff.toNat ≤ now ∧ now < 2 ^ 32))

/-- After the first ten minutes of the clock, a time stamp lies before `drop_dead` exactly if it is older than the
cutoff. -/
theorem stamp_lt_dropDead_iff {now : ℕ} (h : Dated now) (key : UInt64) :
    stampOf key < (UInt32.ofNat now - interruptAgeCutoff).toNat ↔ Old now key := by
  obtain ⟨hcutoff, hnow⟩ := h
  have hofNat : (UInt32.ofNat now).toNat = now := UInt32.toNat_ofNat_of_lt' hnow
  have hle : interruptAgeCutoff ≤ UInt32.ofNat now := by
    rwa [UInt32.le_iff_toNat_le, hofNat]
  rw [UInt32.toNat_sub_of_le _ _ hle, hofNat, Old]
  omega

/-! ### One note -/

/-- The keys that were received are in the set, and so are those that were in it. -/
theorem contains_foldl_insert (keys : List UInt64) (s : UnorderedSet UInt64) (key : UInt64) :
    (keys.foldl UnorderedSet.insert s).Contains key ↔ key ∈ keys ∨ s.Contains key := by
  induction keys generalizing s with
  | nil => simp
  | cons k keys ih =>
    rw [List.foldl_cons, ih, UnorderedSet.contains_insert, List.mem_cons]
    tauto

/-- Culling takes keys from the front of the history and out of the set, up to the first that is not
too old. -/
theorem cull_spec (dropDead : UInt32) (history : List UInt64) (s : UnorderedSet UInt64) :
    ∃ gone, history = gone ++ (cull dropDead history s).1 ∧
      (∀ key ∈ gone, stampOf key < dropDead.toNat) ∧
      (∀ key ∈ (cull dropDead history s).1.head?, dropDead.toNat ≤ stampOf key) ∧
      ∀ key, (cull dropDead history s).2.Contains key ↔ key ∉ gone ∧ s.Contains key := by
  induction history generalizing s with
  | nil => exact ⟨[], rfl, nofun, nofun, fun key => by simp [cull]⟩
  | cons first history ih =>
    by_cases hold : (first >>> 32).toNat < dropDead.toNat
    · -- a duplicate further back finds its key gone already
      obtain ⟨gone, hsplit, hgone, hfront, hcontains⟩ := ih (s.erase first)
      rw [cull, if_pos hold]
      refine ⟨first :: gone, by rw [List.cons_append, ← hsplit], ?_, hfront, fun key => ?_⟩
      · exact List.forall_mem_cons.mpr ⟨hold, hgone⟩
      · rw [hcontains, List.mem_cons, UnorderedSet.Contains, UnorderedMap.find_erase]
        by_cases hkey : key = first
        · simp [hkey]
        · simp [hkey, UnorderedSet.Contains]
    · rw [cull, if_neg hold]
      refine ⟨[], rfl, nofun, fun key hkey => ?_, fun key => by simp⟩
      obtain rfl : first = key := by simpa using hkey
      exact not_lt.mp hold

/-- A worker remembers the keys of a message, and those that it has remembered before. -/
theorem contains_remember (w : Worker) (keys : List UInt64) (key : UInt64) :
    (w.remember keys).interrupts.Contains key ↔ key ∈ keys ∨ w.interrupts.Contains key :=
  contains_foldl_insert keys w.interrupts key

/-- What is left after a cull whose time does not wrap around. -/
theorem cullAt_spec (w : Worker) (now : ℕ) :
    ∃ gone, w.interruptHistory = gone ++ (w.cullAt now).interruptHistory ∧
      (∀ key, (w.cullAt now).interrupts.Contains key ↔ key ∉ gone ∧ w.interrupts.Contains key) ∧
      (Dated now → (∀ key ∈ gone, Old now key) ∧
        ∀ key ∈ (w.cullAt now).interruptHistory.head?, ¬Old now key) := by
  obtain ⟨gone, hsplit, hgone, hfront, hcontains⟩ :=
    cull_spec (.ofNat now - interruptAgeCutoff) w.interruptHistory w.interrupts
  refine ⟨gone, hsplit, hcontains, fun hdated => ⟨fun key hkey => ?_, fun key hkey hold => ?_⟩⟩
  · exact (stamp_lt_dropDead_iff hdated key).mp (hgone key hkey)
  · exact absurd ((stamp_lt_dropDead_iff hdated key).mpr hold) (not_lt.mpr (hfront key hkey))

/-- Every key in the set is on the list as well. -/
def Listed (w : Worker) : Prop := ∀ key, w.interrupts.Contains key → key ∈ w.interruptHistory

/-- A worker that has received nothing remembers nothing. -/
theorem listed_start (heartBeat : Frame) : (start heartBeat).Listed :=
  fun _ h => absurd rfl h

/-- Receiving and culling keep the list and the set together. -/
theorem Listed.note (hw : w.Listed) (n : Note) : (w.note n).Listed := by
  intro key hkey
  cases n with
  | received keys =>
    rw [Worker.note, contains_remember] at hkey
    rcases hkey with hkey | hkey
    · exact List.mem_append_right _ hkey
    · exact List.mem_append_left _ (hw key hkey)
  | culled now =>
    obtain ⟨gone, hsplit, hcontains, -⟩ := w.cullAt_spec now
    obtain ⟨hstays, hkey⟩ := (hcontains key).mp hkey
    have hmem := hw key hkey
    rw [hsplit, List.mem_append] at hmem
    exact hmem.resolve_left hstays

/-- A key in the set stays there, whatever its duplicates do, unless a cull finds it too old. -/
theorem contains_note {key : UInt64} (hkey : w.interrupts.Contains key) {n : Note}
    (hn : ∀ now, n = .culled now → Dated now ∧ ¬Old now key) :
    (w.note n).interrupts.Contains key := by
  cases n with
  | received keys => exact (contains_remember w keys key).mpr (Or.inr hkey)
  | culled now =>
    obtain ⟨hdated, hyoung⟩ := hn now rfl
    obtain ⟨gone, -, hcontains, hold⟩ := w.cullAt_spec now
    exact (hcontains key).mpr ⟨fun hgone => hyoung ((hold hdated).1 key hgone), hkey⟩

/-! ### All notes -/

/-- Notes can be taken in two goes. -/
theorem noteAll_append (w : Worker) (ns ms : List Note) :
    w.noteAll (ns ++ ms) = (w.noteAll ns).noteAll ms := List.foldl_append

/-- The list and the set stay together over all notes. -/
theorem Listed.noteAll (hw : w.Listed) (notes : List Note) : (w.noteAll notes).Listed := by
  induction notes generalizing w with
  | nil => exact hw
  | cons n notes ih => exact ih (hw.note n)

/-- A key stays remembered as long as no cull finds it old. -/
theorem contains_noteAll {key : UInt64} (hkey : w.interrupts.Contains key) {notes : List Note}
    (hnotes : ∀ now, .culled now ∈ notes → Dated now ∧ ¬Old now key) :
    (w.noteAll notes).interrupts.Contains key := by
  induction notes generalizing w with
  | nil => exact hkey
  | cons n notes ih =>
    refine ih (contains_note hkey fun now h => hnotes now ?_) fun now h => hnotes now ?_
    · exact h ▸ List.mem_cons_self
    · exact List.mem_cons_of_mem _ h

/-- What is remembered after these receipts and culls, if it is as it should be: every key in the set is
on the list; a key that was received is in the set until a cull finds it too old; the key at the front of
the list is not too old for a cull that just ran. -/
structure Remembers (notes : List Note) (w : Worker) : Prop where
  /-- Every key in the set is on the list as well. -/
  listed : w.Listed
  /-- A key that was received is known as long as it was not old when the history was culled. -/
  kept : ∀ before keys after key, notes = before ++ .received keys :: after → key ∈ keys →
    (∀ now, .culled now ∈ after → ¬Old now key) → w.interrupts.Contains key
  /-- After culling the oldest key that is left is not old. -/
  front : ∀ before now, notes = before ++ [.culled now] →
    ∀ key ∈ w.interruptHistory.head?, ¬Old now key

/-- As long as no cull runs in the first ten minutes of the epoch, or after the last second of 32 bits,
interrupts are forgotten only when old. -/
theorem remembers_of_notes {heartBeat : Frame} {notes : List Note}
    (hdated : ∀ now, .culled now ∈ notes → Dated now) :
    ((start heartBeat).noteAll notes).Remembers notes where
  listed := (listed_start heartBeat).noteAll notes
  kept before keys after key hsplit hkey hyoung := by
    subst hsplit
    -- the key is in the set when it is received, and stays through what comes after
    rw [noteAll_append]
    refine contains_noteAll (w := ((start heartBeat).noteAll before).remember keys) ?_ fun now hnow => ?_
    · exact (contains_remember _ keys key).mpr (Or.inl hkey)
    · exact ⟨hdated now (by simp [hnow]), hyoung now hnow⟩
  front before now hsplit := by
    subst hsplit
    rw [noteAll_append]
    obtain ⟨gone, -, -, hold⟩ := ((start heartBeat).noteAll before).cullAt_spec now
    exact (hold (hdated now (by simp))).2

/-- A cull in the first ten minutes takes the keys of the first second for too old. -/
theorem not_remembers_of_lt {now : ℕ} (hearly : now < interruptAgeCutoff.toNat) :
    ¬((start []).noteAll [.received [0], .culled now]).Remembers [.received [0], .culled now] := by
  intro hremembers
  have hcutoff : interruptAgeCutoff.toNat = 600 := rfl
  -- the subtraction wraps around
  have hdropDead : ((0 : UInt64) >>> 32).toNat < (UInt32.ofNat now - interruptAgeCutoff).toNat := by
    have hzero : ((0 : UInt64) >>> 32).toNat = 0 := rfl
    have hofNat : (UInt32.ofNat now).toNat = now := UInt32.toNat_ofNat_of_lt' (hearly.trans (by decide))
    rw [UInt32.toNat_sub, hofNat, hzero]
    omega
  have hyoung : ∀ t, Note.culled t ∈ [Note.culled now] → ¬Old t 0 := by
    intro t ht
    obtain rfl : t = now := by simpa using ht
    unfold Old
    omega
  have hkept := hremembers.kept [] [0] [.culled now] 0 rfl (by simp) hyoung
  have hlisted := hremembers.listed 0 hkept
  have hempty : ((start []).noteAll [.received [0], .culled now]).interruptHistory = [] := by
    change (cull _ [0] _).1 = []
    rw [cull, if_pos hdropDead, cull]
  rw [hempty] at hlisted
  exact List.not_mem_nil hlisted

/-- Among the times of 32 bits, those after the first ten minutes are exactly those at which culls make
workers forget interrupts only when old. -/
theorem remembers_iff {times : Set ℕ} (htimes : ∀ now ∈ times, now < 2 ^ 32) :
    (∀ (heartBeat : Frame) (notes : List Note), (∀ now, .culled now ∈ notes → now ∈ times) →
      ((start heartBeat).noteAll notes).Remembers notes) ↔
    ∀ now ∈ times, interruptAgeCutoff.toNat ≤ now := by
  constructor
  · intro hall now hnow
    by_contra hearly
    refine not_remembers_of_lt (not_le.mp hearly) (hall [] _ fun t ht => ?_)
    obtain rfl : t = now := by simpa using ht
    exact hnow
  · intro hcutoff heartBeat notes hculls
    exact remembers_of_notes fun now hnow =>
      ⟨hcutoff now (hculls now hnow), htimes now (hculls now hnow)⟩

/-- `remembers_iff` for one day. -/
theorem remembers_iff_oneDay :
    (∀ (heartBeat : Frame) (notes : List Note),
      (∀ now, .culled now ∈ notes → now ∈ {t | 1500000000 ≤ t ∧ t < 1500086400}) →
      ((start heartBeat).noteAll notes).Remembers notes) ↔
    ∀ now ∈ {t | 1500000000 ≤ t ∧ t < 1500086400}, interruptAgeCutoff.toNat ≤ now :=
  remembers_iff fun _ hnow => hnow.2.trans (by decide)

/-- An interrupt is forgotten nine seconds after its time stamp. -/
theorem not_remembers :
    ¬∀ (heartBeat : Frame) (notes : List Note), ((start heartBeat).noteAll notes).Remembers notes := by
  intro h
  have hyoung : ∀ now, Note.culled now ∈ [Note.culled 599] → ¬Old now 0x24E00000000 := by
    intro now hnow
    obtain rfl : now = 599 := by simpa using hnow
    decide
  have hkept := (h [] [.received [0x24E00000000], .culled 599]).kept [] [0x24E00000000] [.culled 599]
    0x24E00000000 rfl (by simp) hyoung
  exact absurd hkept (by decide)

/-! ### Runs of the worker -/

/-- What a step does with interrupts. -/
def notesOf (w : Worker) : WorkerInput → List Note
  | .poll (some _) _ | .bail => [.received (w.waiting.take 1)]
  | .check now =>
    match w.control with
    | .checking true =>
      .received (w.waiting.take 1) :: if (w.handleInterrupt false).2 then [] else [.culled now]
    | _ => []
  | _ => []

/-- What the steps of a run do with interrupts. -/
def trace : Worker → List WorkerInput → List Note
  | _, [] => []
  | w, input :: inputs =>
    w.notesOf input ++
      match w.step input with
      | none => []
      | some t => trace t inputs

/-- The workers remember the same. -/
def Agrees (w t : Worker) : Prop :=
  w.interrupts = t.interrupts ∧ w.interruptHistory = t.interruptHistory

/-- Two workers that remember the same still do so after the same notes. -/
theorem Agrees.noteAll {w t : Worker} (h : w.Agrees t) (notes : List Note) :
    (w.noteAll notes).Agrees (t.noteAll notes) := by
  induction notes generalizing w t with
  | nil => exact h
  | cons n notes ih =>
    obtain ⟨hinterrupts, hhistory⟩ := h
    refine ih ?_
    cases n <;> simp [Agrees, note, remember, cullAt, hinterrupts, hhistory]

/-- A step does with interrupts what its notes say. -/
theorem agrees_of_step {input : WorkerInput} {t : Worker} (h : w.step input = some t) :
    t.Agrees (w.noteAll (w.notesOf input)) := by
  have hstepped := stepped_of_step h
  cases hstepped with
  | took info frames interrupted hcontrol =>
    -- whether the job is interrupted or not, the key is remembered
    unfold take
    split <;> rename_i heq <;> obtain rfl := (Prod.mk.inj heq).1 <;> exact ⟨rfl, rfl⟩
  | interrupted now hcontrol hthrew =>
    have hnotes : w.notesOf (.check now) = [.received (w.waiting.take 1)] := by
      simp only [notesOf, hcontrol, if_pos hthrew]
    rw [hnotes]
    exact ⟨rfl, rfl⟩
  | checked hcontrol hthrew hcull =>
    rename_i now history interrupts
    have hnotes : w.notesOf (.check now) = [.received (w.waiting.take 1), .culled now] := by
      simp only [notesOf, hcontrol, if_neg hthrew]
    rw [hnotes]
    exact ⟨(congrArg Prod.snd hcull).symm, (congrArg Prod.fst hcull).symm⟩
  | unchecked now hcontrol =>
    have hnotes : w.notesOf (.check now) = [] := by
      simp only [notesOf, hcontrol]
    rw [hnotes]
    exact ⟨rfl, rfl⟩
  | _ => exact ⟨rfl, rfl⟩

/-- A run does with interrupts what its trace says. -/
theorem agrees_of_run {inputs : List WorkerInput} {t : Worker}
    (hrun : Transition.run step w inputs = some t) : t.Agrees (w.noteAll (w.trace inputs)) := by
  induction inputs generalizing w with
  | nil =>
    obtain rfl : w = t := by simpa using hrun
    exact ⟨rfl, rfl⟩
  | cons input inputs ih =>
    rw [Transition.run_cons, Option.bind_eq_some_iff] at hrun
    obtain ⟨u, hu, hrun⟩ := hrun
    have hrest := ih hrun
    have hfirst := (agrees_of_step hu).noteAll (u.trace inputs)
    rw [trace, hu, noteAll_append]
    exact ⟨hrest.1.trans hfirst.1, hrest.2.trans hfirst.2⟩

/-- Only a look at the interrupts culls. -/
theorem check_of_culled {input : WorkerInput} {now : ℕ} (h : .culled now ∈ w.notesOf input) :
    .check now = input := by
  unfold notesOf at h
  split at h
  case h_3 t =>
    split at h
    · split_ifs at h <;> simp_all
    · simp at h
  all_goals simp at h

/-- Every cull of a run is one of its checks. -/
theorem check_mem_of_culled {inputs : List WorkerInput} {now : ℕ} (h : .culled now ∈ w.trace inputs) :
    .check now ∈ inputs := by
  induction inputs generalizing w with
  | nil => simp [trace] at h
  | cons input inputs ih =>
    rw [trace, List.mem_append] at h
    rcases h with h | h
    · exact List.mem_cons.mpr (Or.inl (check_of_culled h))
    · cases hstep : w.step input with
      | none => simp [hstep] at h
      | some t =>
        rw [hstep] at h
        exact List.mem_cons_of_mem _ (ih h)

/-- In every run of the worker that looks at interrupts at no time of the first ten minutes, they are
forgotten only when old. -/
theorem remembers_of_run {heartBeat : Frame} {inputs : List WorkerInput} {t : Worker}
    (hrun : Transition.run step (start heartBeat) inputs = some t)
    (hdated : ∀ now, .check now ∈ inputs → Dated now) :
    t.Remembers ((start heartBeat).trace inputs) := by
  obtain ⟨hinterrupts, hhistory⟩ := agrees_of_run hrun
  have hnotes : ((start heartBeat).noteAll ((start heartBeat).trace inputs)).Remembers
      ((start heartBeat).trace inputs) :=
    remembers_of_notes fun now hnow => hdated now (check_mem_of_culled hnow)
  constructor
  · intro key hkey
    rw [hhistory]
    exact hnotes.listed key (hinterrupts ▸ hkey)
  · intro before keys after key hsplit hkey hyoung
    rw [hinterrupts]
    exact hnotes.kept before keys after key hsplit hkey hyoung
  · intro before now hsplit
    rw [hhistory]
    exact hnotes.front before now hsplit

end Worker

end PrimeServer
