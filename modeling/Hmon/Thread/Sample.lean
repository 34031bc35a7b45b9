import Hmon.Thread.System

/-!
# How often a round samples a monitor

There is no barrier between the passes of a round. A thread that is slow to stop a shared monitor can find it
already read, reduced and started again by another thread, stop it once more, and read it a second time.

* `ReadIn` : the monitors that a round reads; `Unchained` : a monitor that no such monitor has as a child;
* `SampleOps` : what the threads can have left to do about it; `SampleStep` : what one step can do about it;
* `NotAgain` : no `hmonitor_stop` finds the monitor running after the round has sampled it;
* `one_sample_iff` : **a round takes one sample of a monitor exactly when no thread stops it again**.
-/

namespace Hmon
open Lib

variable {V M : Type}

/-- The monitors that a round reads: those visited by a core thread, and their children. -/
inductive ReadIn (L : Registry V M) : M → Prop
  | visited {i : Nat} {m : M} : m ∈ L.visits i → ReadIn L m
  | child {p c : M} : ReadIn L p → c ∈ (L.mon p).eventset.childEvents → ReadIn L c

/-- No monitor that a round reads has `m` among its children. -/
def Unchained (L : Registry V M) (m : M) : Prop := ∀ p, ReadIn L p → m ∉ (L.mon p).eventset.childEvents

/-- The reads and locks left are of monitors that the round reads; `m` is not locked as a child. -/
def Op.Within (L : Registry V M) (m : M) : Op M → Prop
  | .read p => ReadIn L p
  | .lockChild c => ReadIn L c ∧ c ≠ m
  | _ => True

section Sample
variable [DecidableEq M]

/-- What a thread can have left to do: at most one read of `m`, behind every stop of it. -/
structure SampleOps (L : Registry V M) (m : M) (ops : List (Op M)) : Prop where
  noReset : NoReset ops
  within : ∀ op ∈ ops, op.Within L m
  once : ops.count (.read m) ≤ 1
  follows : Follows (.stop m) [.read m] ops

/-- The samples of `m` in the round. -/
def sampled (m : M) (w : World V M) : Nat := w.round.count (m, .sample)

/-- The owner of `m` has a read of it to make. -/
def Pending (m : M) (w : World V M) : Prop := .read m ∈ w.todo (w.mon m).owner

/-- The next operation is a stop of `m`, which runs though the round has sampled it. -/
def stopsAgain (m : M) (w : World V M) : List (Op M) → Bool
  | .stop x :: _ => decide (x = m) && !(w.mon m).stopped && decide (1 ≤ sampled m w)
  | _ => false

/-- No stop finds `m` running after the round has sampled it. -/
def NotAgain (m : M) (w : World V M) (l : Thread × Answer V) : Prop := stopsAgain m w (w.todo l.1) = false

instance (m : M) (w : World V M) (l : Thread × Answer V) : Decidable (NotAgain m w l) :=
  inferInstanceAs (Decidable (_ = _))

variable {L : Registry V M} {m : M} {w w' : World V M}

/-! ## What the threads have left to do -/

/-- What an operation pushes contains no read of `m`. -/
theorem SampleOps.pushed {op : Op M} {ops pushed : List (Op M)} {mon : M → Hmonitor Thread V M}
    (h : SampleOps L m (op :: ops)) (hu : Unchained L m) (hev : ∀ p, (mon p).eventset = (L.mon p).eventset)
    (hp : Pushes mon op pushed) : ∀ o ∈ pushed, o.Within L m ∧ o ≠ .read m := by
  have hop : op.Within L m := h.within op List.mem_cons_self
  intro o ho
  cases hp with
  | none => cases ho
  | read p hops =>
    rcases List.mem_append.mp ho with ho | ho
    · have hchild : ∀ {c}, c ∈ (mon p).eventset.childEvents → ReadIn L c ∧ c ≠ m := by
        intro c hc
        rw [hev] at hc
        exact ⟨.child hop hc, fun hcm => hu p hop (hcm ▸ hc)⟩
      cases hops o ho with
      | lockChild hc => exact ⟨hchild hc, by simp⟩
      | read hc => exact ⟨(hchild hc).1, fun h0 => (hchild hc).2 (Op.read.inj h0)⟩
      | reduce | copySamples | copyEvents | addEvents => exact ⟨trivial, by simp⟩
    · rw [List.mem_singleton.mp ho]
      exact ⟨trivial, by simp⟩
  | locked c =>
    rw [List.mem_cons, List.mem_cons, List.mem_singleton] at ho
    rcases ho with rfl | rfl | rfl
    · exact ⟨hop.1, fun h0 => hop.2 (Op.read.inj h0)⟩
    · exact ⟨trivial, by simp⟩
    · exact ⟨trivial, by simp⟩
  | waits c => rw [List.mem_singleton.mp ho]; exact ⟨trivial, by simp⟩
  | unlock c => rw [List.mem_singleton.mp ho]; exact ⟨trivial, by simp⟩
  | reset x => exact absurd List.mem_cons_self (h.noReset x)

theorem SampleOps.step {op : Op M} {ops pushed : List (Op M)} {mon : M → Hmonitor Thread V M}
    (h : SampleOps L m (op :: ops)) (hu : Unchained L m) (hev : ∀ p, (mon p).eventset = (L.mon p).eventset)
    (hp : Pushes mon op pushed) : SampleOps L m (pushed ++ ops) := by
  have hpush := h.pushed hu hev hp
  refine ⟨h.noReset.step hp, fun o ho => ?_, ?_, ?_⟩
  · rcases List.mem_append.mp ho with ho | ho
    · exact (hpush o ho).1
    · exact h.within o (List.mem_cons_of_mem op ho)
  · have h0 : pushed.count (.read m) = 0 := List.count_eq_zero.mpr fun ho => (hpush _ ho).2 rfl
    rw [List.count_append, h0, Nat.zero_add]
    exact (List.count_le_count_cons ..).trans h.once
  · exact (Follows.of_not_mem (hp.not_startStop m).2).append h.follows.tail

/-- The threads' work about `m`, and the eventsets the round began with. -/
structure SampleShape (L : Registry V M) (m : M) (w : World V M) : Prop where
  ops : ∀ t, SampleOps L m (w.todo t)
  eventset : ∀ p, (w.mon p).eventset = (L.mon p).eventset

/-! ## What a step does -/

/-- A step stops `m`, which ran, and its thread is going to read it; or it is the owner's read; or it leaves the
count and what is going to be read as they were. -/
inductive SampleStep (m : M) (w w' : World V M) (l : Thread × Answer V) : Prop
  | stop : (w.mon m).stopped = false → (NotAgain m w l → sampled m w = 0) → Pending m w' →
      sampled m w' = sampled m w → (w'.mon m).total = (w.mon m).total → SampleStep m w w' l
  | sample : NotAgain m w l → Pending m w → ¬ Pending m w' → sampled m w' = sampled m w + 1 →
      (w'.mon m).total = u32 ((w.mon m).total + 1) → SampleStep m w w' l
  | other : NotAgain m w l → (Pending m w' ↔ Pending m w) → sampled m w' = sampled m w →
      (w'.mon m).total = (w.mon m).total →
      ((w.mon m).stopped = false → (w'.mon m).stopped = false ∧ ∀ t, .stop m ∈ w.todo t → .stop m ∈ w'.todo t) →
      SampleStep m w w' l

section Steps
variable [Double V]

theorem SampleShape.step {l : Thread × Answer V} (h : SampleShape L m w) (hu : Unchained L m)
    (hn : w.step l.2 l.1 = some w') : SampleShape L m w' := by
  obtain ⟨op, ops, e, htodo, he, rfl⟩ := World.step_cases hn
  refine ⟨w.commit_todo_all _ _ e ops h.ops ?_, fun p => ?_⟩
  · exact (htodo ▸ h.ops l.1 : SampleOps L m (op :: ops)).step hu h.eventset (Op.effect_pushes he)
  · by_cases hp : p = op.target
    · subst hp
      rw [World.commit_mon_self, (Op.effect_shape he).eventset]
      exact h.eventset _
    · rw [World.commit_mon_ne _ _ _ _ _ hp]
      exact h.eventset p

/-- The operations other than the two that matter: `m` keeps its owner and total, and nothing is sampled. -/
theorem SampleShape.other {t : Thread} {a : Answer V} {op : Op M} {ops : List (Op M)} {e : Effect V M}
    (h : SampleShape L m w) (hu : Unchained L m) (htodo : w.todo t = op :: ops)
    (he : op.effect t a w.mon = some e) (hread : op ≠ .read m ∨ (w.mon m).owner ≠ t)
    (hstop : op ≠ .stop m ∨ (w.mon m).stopped = true)
    (ho : ((w.commit t op.target e ops).mon m).owner = (w.mon m).owner)
    (hs : (w.mon m).stopped = false → ((w.commit t op.target e ops).mon m).stopped = false)
    (htotal : ((w.commit t op.target e ops).mon m).total = (w.mon m).total)
    (hsample : op.target = m → .sample ∉ e.events) :
    SampleStep m w (w.commit t op.target e ops) (t, a) := by
  have hpush := (htodo ▸ h.ops t : SampleOps L m (op :: ops)).pushed hu h.eventset (Op.effect_pushes he)
  refine .other ?_ ?_ ?_ htotal fun hrun => ⟨hs hrun, fun u hmem => ?_⟩
  · unfold NotAgain
    rw [htodo]
    cases op with
    | stop x =>
      by_cases hx : x = m
      · subst hx
        rcases hstop with h0 | h0
        · exact absurd rfl h0
        · simp [stopsAgain, h0]
      · simp [stopsAgain, hx]
    | _ => rfl
  · unfold Pending
    rw [ho]
    by_cases hut : (w.mon m).owner = t
    · rw [hut, World.commit_todo_self, htodo, List.mem_append, List.mem_cons]
      constructor
      · rintro (h0 | h0)
        · exact absurd rfl (hpush _ h0).2
        · exact Or.inr h0
      · rintro (h0 | h0)
        · rcases hread with h1 | h1
          · exact absurd h0.symm h1
          · exact absurd hut h1
        · exact Or.inr h0
    · rw [World.commit_todo_ne _ _ _ _ _ hut]
  · unfold sampled
    have h0 : (e.events.map fun ev => (op.target, ev)).count (m, .sample) = 0 := by
      refine List.count_eq_zero.mpr fun hmem => ?_
      obtain ⟨ev, hev, heq⟩ := List.mem_map.mp hmem
      obtain ⟨h1, h2⟩ := Prod.mk.inj heq
      exact hsample h1 (h2 ▸ hev)
    rw [World.commit_round, List.count_append, h0, Nat.add_zero]
  · have hop : op ≠ .stop m := hstop.resolve_right fun h1 => absurd (hrun.symm.trans h1) (by decide)
    exact w.commit_todo_mem t _ e ops htodo hmem fun _ => hop.symm

omit [Double V] in
/-- A stop of the running `m`: its thread becomes the owner and is going to read it. -/
theorem SampleShape.stops {t : Thread} {a : Answer V} {ops : List (Op M)} (h : SampleShape L m w)
    (htodo : w.todo t = .stop m :: ops) (hrun : (w.mon m).stopped = false) :
    SampleStep m w (w.commit t m (hmonitorStop t a (w.mon m)).effect ops) (t, a) := by
  have hops : SampleOps L m (.stop m :: ops) := htodo ▸ h.ops t
  rw [hmonitorStop_of_running t a hrun]
  refine .stop hrun (fun hna => ?_) ?_ ?_ ?_
  · -- the guard of this step: nothing has been sampled
    unfold NotAgain at hna
    rw [htodo] at hna
    simpa [stopsAgain, hrun] using hna
  · unfold Pending
    rw [World.commit_mon_self]
    show .read m ∈ (w.commit t m _ ops).todo t
    rw [World.commit_todo_self]
    exact List.singleton_sublist.mp hops.follows.head
  · unfold sampled
    rw [World.commit_round]
    simp [Outcome.effect]
  · rw [World.commit_mon_self]
    rfl

/-- The owner's read of `m`, its only one. -/
theorem SampleShape.samples {t : Thread} {a : Answer V} {ops : List (Op M)} {e : Effect V M} (h : SampleShape L m w)
    (hu : Unchained L m) (htodo : w.todo t = .read m :: ops) (he : (Op.read m).effect t a w.mon = some e)
    (hown : (w.mon m).owner = t) : SampleStep m w (w.commit t m e ops) (t, a) := by
  have hops : SampleOps L m (.read m :: ops) := htodo ▸ h.ops t
  have hpush := hops.pushed hu h.eventset (Op.effect_pushes he)
  have honce : .read m ∉ ops := fun hmem => by
    have h1 := hops.once
    rw [List.count_cons_self] at h1
    exact absurd (List.count_pos_iff.mpr hmem) (by omega)
  obtain ⟨-, hc, -, htotal, hev⟩ := (Op.read_cases he).resolve_left fun h0 => h0.1 hown
  refine .sample ?_ ?_ ?_ ?_ ?_
  · unfold NotAgain
    rw [htodo]
    rfl
  · unfold Pending
    rw [hown, htodo]
    exact List.mem_cons_self
  · unfold Pending
    rw [World.commit_mon_self, hc.owner, hown, World.commit_todo_self, List.mem_append, not_or]
    exact ⟨fun h0 => (hpush _ h0).2 rfl, honce⟩
  · unfold sampled
    rw [World.commit_round, List.count_append]
    rcases hev with ⟨-, hev, -⟩ | ⟨-, hev, -⟩
    · rw [hev]
      cases a.ok <;> simp
    · rw [hev]
      simp
  · rw [World.commit_mon_self]
    exact htotal

/-- The operations on `m` that write no flag and no owner. -/
theorem SampleShape.unsteered {t : Thread} {a : Answer V} {op : Op M} {ops : List (Op M)} {e : Effect V M}
    (h : SampleShape L m w) (hu : Unchained L m) (htodo : w.todo t = op :: ops) (he : op.effect t a w.mon = some e)
    (hm : op.target = m) (hs : op.steers = false) : SampleStep m w (w.commit t op.target e ops) (t, a) := by
  obtain ⟨h1, h2⟩ := Op.effect_unsteered hs he
  by_cases hr : op = .read m
  · subst hr
    by_cases hown : (w.mon m).owner = t
    · exact h.samples hu htodo he hown
    · rcases Op.read_cases he with ⟨-, rfl⟩ | ⟨h0, -⟩
      · exact h.other hu htodo he (Or.inr hown) (Or.inl (by simp)) (by rw [Op.target, World.commit_mon_self])
          (fun hrun => by rw [Op.target, World.commit_mon_self]; exact hrun)
          (by rw [Op.target, World.commit_mon_self]) fun _ => List.not_mem_nil
      · exact absurd h0 hown
  · have hr' : ∀ p, op ≠ .read p := by
      rintro p rfl
      exact hr (by rw [← hm]; rfl)
    have hz : ∀ p, op ≠ .reset p := by
      rintro p rfl
      cases hs
    have ht := Op.effect_total hr' hz he
    have hst : op ≠ .stop m := by
      rintro rfl
      cases hs
    subst hm
    exact h.other hu htodo he (Or.inl hr) (Or.inl hst) (by rw [World.commit_mon_self, h2])
      (fun hrun => by rw [World.commit_mon_self, h1, hrun]) (by rw [World.commit_mon_self, ht.1]) fun _ => ht.2

theorem SampleShape.cases {l : Thread × Answer V} (h : SampleShape L m w) (hu : Unchained L m)
    (hn : w.step l.2 l.1 = some w') : SampleStep m w w' l := by
  obtain ⟨t, a⟩ := l
  obtain ⟨op, ops, e, htodo, he, rfl⟩ := World.step_cases hn
  have hops : SampleOps L m (op :: ops) := htodo ▸ h.ops t
  by_cases hm : op.target = m
  · by_cases hs : op.steers = true
    · cases op with
      | start x =>
        obtain rfl : x = m := hm
        have ht := Op.effect_total (by simp) (by simp) he
        cases he
        refine h.other hu htodo rfl (Or.inl (by simp)) (Or.inl (by simp)) ?_ (fun hrun => ?_) ?_ fun _ => ht.2
        · rw [Op.target, World.commit_mon_self]
          exact hmonitorStart_owner t a _
        · rw [Op.target, World.commit_mon_self, hmonitorStart_of_running t a hrun]
          exact hrun
        · rw [Op.target, World.commit_mon_self]
          exact ht.1
      | stop x =>
        obtain rfl : x = m := hm
        cases he
        by_cases hst : (w.mon x).stopped = true
        · rw [hmonitorStop_of_stopped t a hst]
          exact h.other hu htodo (by rw [Op.effect, hmonitorStop_of_stopped t a hst]) (Or.inl (by simp)) (Or.inr hst)
            (by rw [Op.target, World.commit_mon_self]; rfl) (fun hrun => absurd (hrun.symm.trans hst) (by decide))
            (by rw [Op.target, World.commit_mon_self]; rfl) fun _ => List.not_mem_nil
        · rw [Bool.not_eq_true] at hst
          exact h.stops htodo hst
      | lockChild c => exact absurd hm (hops.within _ List.mem_cons_self).2
      | reset x => exact absurd List.mem_cons_self (hops.noReset x)
      | read | reduce | blocked | unlock | release | copySamples | copyEvents | addEvents | readDone => cases hs
    · rw [Bool.not_eq_true] at hs
      exact h.unsteered hu htodo he hm hs
  · have hmon := w.commit_mon_ne t op.target e ops (Ne.symm hm)
    exact h.other hu htodo he (Or.inl fun h0 => hm (by rw [h0]; rfl)) (Or.inl fun h0 => hm (by rw [h0]; rfl))
      (by rw [hmon]) (fun hrun => by rw [hmon]; exact hrun) (by rw [hmon]) fun h0 => absurd h0 hm

end Steps

/-! ## A round -/

/-- The round has not sampled `m`, and its owner or the thread of core `i` is going to; or it has, once. -/
def OneSample (m : M) (i total : Nat) (w : World V M) : Prop :=
  sampled m w = 0 ∧ (w.mon m).total = total ∧
      (Pending m w ∨ (w.mon m).stopped = false ∧ .stop m ∈ w.todo (.core i)) ∨
    sampled m w = 1 ∧ (w.mon m).total = u32 (total + 1) ∧ ¬ Pending m w

/-- The round has sampled `m` twice, or has once and the owner is going to. -/
def TwoSamples (m : M) (w : World V M) : Prop := 2 ≤ sampled m w ∨ 1 ≤ sampled m w ∧ Pending m w

theorem OneSample.step {i total : Nat} {l : Thread × Answer V} (h : OneSample m i total w) (hok : NotAgain m w l)
    (hs : SampleStep m w w' l) : OneSample m i total w' := by
  cases hs with
  | stop hrun hzero hpend hcount htotal =>
    rcases h with ⟨h0, ht, -⟩ | ⟨h1, -, -⟩
    · exact Or.inl ⟨hcount.trans h0, htotal.trans ht, Or.inl hpend⟩
    · exact absurd (h1.symm.trans (hzero hok)) (by decide)
  | sample _ hpend hnot hcount htotal =>
    rcases h with ⟨h0, ht, -⟩ | ⟨-, -, h1⟩
    · exact Or.inr ⟨by rw [hcount, h0], by rw [htotal, ht], hnot⟩
    · exact absurd hpend h1
  | other _ hpend hcount htotal hrun =>
    rcases h with ⟨h0, ht, hp | ⟨hr, hst⟩⟩ | ⟨h1, ht, hp⟩
    · exact Or.inl ⟨hcount.trans h0, htotal.trans ht, Or.inl (hpend.mpr hp)⟩
    · exact Or.inl ⟨hcount.trans h0, htotal.trans ht, Or.inr ⟨(hrun hr).1, (hrun hr).2 _ hst⟩⟩
    · exact Or.inr ⟨hcount.trans h1, htotal.trans ht, fun hp' => hp (hpend.mp hp')⟩

theorem TwoSamples.step {l : Thread × Answer V} (h : TwoSamples m w) (hs : SampleStep m w w' l) :
    TwoSamples m w' := by
  have h1 : 1 ≤ sampled m w := h.elim (fun h => by omega) And.left
  cases hs with
  | stop _ _ hpend hcount _ => exact Or.inr ⟨hcount.symm ▸ h1, hpend⟩
  | sample _ _ _ hcount _ => exact Or.inl (by omega)
  | other _ hpend hcount _ _ =>
    rcases h with h | ⟨-, hp⟩
    · exact Or.inl (hcount.symm ▸ h)
    · exact Or.inr ⟨hcount.symm ▸ h1, hpend.mpr hp⟩

/-- A stop that finds `m` running again leads to a second sample. -/
theorem SampleStep.again {l : Thread × Answer V} (hs : SampleStep m w w' l) (hna : ¬ NotAgain m w l) :
    TwoSamples m w' := by
  have h1 : 1 ≤ sampled m w := by
    unfold NotAgain at hna
    rw [Bool.not_eq_false] at hna
    unfold stopsAgain at hna
    split at hna
    · rw [Bool.and_eq_true, decide_eq_true_eq] at hna
      exact hna.2
    · cases hna
  cases hs with
  | stop _ _ hpend hcount _ => exact Or.inr ⟨hcount.symm ▸ h1, hpend⟩
  | sample hok | other hok => exact absurd hok hna

theorem sampleOps_thread (hnd : ∀ i, (L.visits i).Nodup) (i : Nat) : SampleOps L m (hmonitorThread L i) := by
  refine ⟨fun x => ?_, fun op hop => ?_, ?_, ?_⟩
  · simp [hmonitorThread, collect]
  · simp only [hmonitorThread, collect, List.mem_append, List.mem_map] at hop
    rcases hop with ((⟨p, -, rfl⟩ | ⟨p, hp, rfl⟩) | ⟨p, -, rfl⟩) | ⟨p, -, rfl⟩
    · trivial
    · exact .visited hp
    · trivial
    · trivial
  · have hreads : ((L.visits i).map Op.read).count (.read m) ≤ 1 :=
      List.nodup_iff_count_le_one.mp ((hnd i).map fun _ _ => Op.read.inj) _
    simp only [hmonitorThread, collect, List.count_append]
    have h0 : ∀ f : M → Op M, (∀ x, f x ≠ .read m) → ((L.visits i).map f).count (.read m) = 0 := by
      intro f hf
      refine List.count_eq_zero.mpr fun hmem => ?_
      obtain ⟨x, -, hx⟩ := List.mem_map.mp hmem
      exact hf x hx
    rw [h0 .stop (by simp), h0 .reduce (by simp), h0 .start (by simp)]
    omega
  · exact (hmonitorThread_follows L i m).mono (List.singleton_sublist.mpr List.mem_cons_self)

theorem sampleShape_update (hi : w.Idle) (hnd : ∀ i, (w.lib.visits i).Nodup) :
    SampleShape w.lib m w.update :=
  ⟨World.update_todo_all (hi .main) ⟨fun _ => List.not_mem_nil, by simp, Nat.zero_le 1, trivial⟩ (sampleOps_thread hnd),
    fun _ => rfl⟩

/-- **A round samples a running monitor that it visits exactly once if and only if no stop finds the monitor
running after the round has sampled it.** -/
theorem one_sample_iff [Double V] (hr : hmonSys.Reach FreshTree RegistersOnce w) (hi : w.Idle) {i : Nat}
    (hm : m ∈ w.lib.visits i) (hrun : (w.mon m).stopped = false) (hu : Unchained w.lib m)
    {ls : List (Thread × Answer V)} (hexec : roundSys.exec w.update ls = some w') (hend : w'.Idle) :
    (sampled m w' = 1 ∧ (w'.mon m).total = u32 ((w.mon m).total + 1)) ↔
      roundSys.Along (NotAgain m) w.update ls := by
  have hshape : SampleShape w.lib m w.update := sampleShape_update hi (visits_nodup hr)
  have hpend : ¬ Pending m w' := fun hp => by
    unfold Pending at hp
    rw [hend] at hp
    cases hp
  have hstart : OneSample m i (w.mon m).total w.update := by
    refine Or.inl ⟨rfl, rfl, Or.inr ⟨hrun, ?_⟩⟩
    simp [World.update, hmonitorThread, collect, hm]
  constructor
  · rintro ⟨h1, -⟩
    by_contra hna
    obtain ⟨ls₁, l, ls₂, w₁, rfl, hexec₁, hbad, -⟩ := Lts.not_along hexec hna
    have hshape₁ : SampleShape w.lib m w₁ :=
      Lts.exec_inv (fun _ _ _ hs hn => hs.step hu hn) hshape hexec₁
    rw [Lts.exec_append, hexec₁] at hexec
    obtain ⟨w₂, hn, hexec₂⟩ := Lts.exec_cons_eq_some.mp hexec
    have htwo : SampleShape w.lib m w' ∧ TwoSamples m w' :=
      Lts.exec_inv (I := fun w₂ => SampleShape w.lib m w₂ ∧ TwoSamples m w₂)
        (fun _ _ _ hs hn => ⟨hs.1.step hu hn, hs.2.step (hs.1.cases hu hn)⟩)
        ⟨hshape₁.step hu hn, (hshape₁.cases hu hn).again hbad⟩ hexec₂
    rcases htwo.2 with h2 | ⟨-, hp⟩
    · omega
    · exact hpend hp
  · intro hok
    have hone : SampleShape w.lib m w' ∧ OneSample m i (w.mon m).total w' :=
      hok.exec_inv (I := fun w₂ => SampleShape w.lib m w₂ ∧ OneSample m i (w.mon m).total w₂)
        (fun _ _ _ hs hna hn => ⟨hs.1.step hu hn, hs.2.step hna (hs.1.cases hu hn)⟩) ⟨hshape, hstart⟩ hexec
    rcases hone.2 with ⟨-, -, hp | ⟨-, hst⟩⟩ | ⟨h1, ht, -⟩
    · exact absurd hp hpend
    · rw [hend] at hst
      cases hst
    · exact ⟨h1, ht⟩

end Sample

/-! ## A round that samples twice -/

namespace Shared
open Demo

/-- Monitor 0 on the machine, which both threads visit, started. -/
def setup : List (Label ℚ ℕ) :=
  [.create .main 0 0 (leaf [1] Topo.machine), .register 0 0, .start .main fun _ => ok]

def start : World ℚ ℕ := (hmonSys.exec init setup).get (by decide +kernel)

theorem start_exec : hmonSys.exec init setup = some start := (Option.some_get _).symm

theorem start_reach : hmonSys.Reach FreshTree RegistersOnce start :=
  .of_along (.init init_freshTree) (show hmonSys.Along _ _ setup by decide +kernel) start_exec

theorem start_proper : start.Proper :=
  hmonSys_proper (start_reach.mono (fun _ ⟨topo, mon, _, hw⟩ => ⟨topo, mon, hw⟩) fun _ _ h => h)

theorem start_idle : start.Idle := start_proper.idle_iff.mp (by decide +kernel)

theorem start_unchained : Unchained start.lib 0 := by
  have h0 : ∀ p, ReadIn start.lib p → (start.lib.mon p).eventset.childEvents = [] := by
    intro p hp
    induction hp with
    | visited hv =>
      have hreg := Registry.visits_registered start_proper.sound hv
      rw [show start.lib.registered = [0] by decide +kernel, List.mem_singleton] at hreg
      rw [hreg]
      decide +kernel
    | child _ hc ih => rw [ih] at hc; cases hc
  intro p hp
  rw [h0 p hp]
  exact List.not_mem_nil

theorem run_idle {w : World ℚ ℕ} {ls : List (Thread × Answer ℚ)} (h : roundSys.exec start.update ls = some w)
    (hi : w.idle = true) : w.Idle :=
  (roundSys_proper start_proper.update h).idle_iff.mp hi

/-- Thread 1 comes to the monitor while thread 0 has it stopped. -/
def together : List (Thread × Answer ℚ) := cores [0, 1, 0, 1, 0, 1, 0, 1]

def togetherEnd : World ℚ ℕ := (roundSys.exec start.update together).get (by decide +kernel)

theorem together_exec : roundSys.exec start.update together = some togetherEnd := (Option.some_get _).symm

/-- Thread 1 comes to the monitor after thread 0 has started it again. -/
def apart : List (Thread × Answer ℚ) := cores [0, 0, 0, 0, 1, 1, 1, 1]

def apartEnd : World ℚ ℕ := (roundSys.exec start.update apart).get (by decide +kernel)

theorem apart_exec : roundSys.exec start.update apart = some apartEnd := (Option.some_get _).symm

end Shared

open Shared in
theorem one_sample_together : sampled 0 togetherEnd = 1 ∧
    (togetherEnd.mon 0).total = u32 ((Shared.start.mon 0).total + 1) :=
  (one_sample_iff start_reach start_idle (show 0 ∈ Shared.start.lib.visits 0 by decide +kernel) (by decide +kernel)
    start_unchained together_exec (run_idle together_exec (by decide +kernel))).mpr (by decide +kernel)

open Shared in
/-- A thread that comes late samples the monitor of the machine a second time. -/
theorem two_samples_apart : ∃ w : World ℚ ℕ, hmonSys.Reach FreshTree RegistersOnce w ∧ w.Idle ∧
    ∃ m i ls w', m ∈ w.lib.visits i ∧ (w.mon m).stopped = false ∧ Unchained w.lib m ∧
      roundSys.exec w.update ls = some w' ∧ w'.Idle ∧ sampled m w' = 2 ∧
      (w'.mon m).total = (w.mon m).total + 2 :=
  ⟨Shared.start, start_reach, start_idle, 0, 0, apart, apartEnd, by decide +kernel, by decide +kernel,
    start_unchained, apart_exec, run_idle apart_exec (by decide +kernel), by decide +kernel, by decide +kernel⟩

end Hmon
