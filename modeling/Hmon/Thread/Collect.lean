import Hmon.Thread.System

/-!
# What a round has read and reduced

* `Collected` : a monitor was read, and then reduced;
* `Progress` : how far a round has come with a monitor: a running one is going to be stopped, its owner is going to
  read and reduce it, or to reduce what was read, or the round is done with it;
* `Collecting.step`, `Collecting.collected` : **a round whose reads succeed keeps this, so a monitor that nobody is
  going to reduce any more has been read and reduced**.
-/

namespace Hmon
open Lib

variable {V M : Type}

/-- The log has a read of `m` and a reduction of `m` behind it. -/
def Collected (m : M) (log : List (M × Event)) : Prop := [(m, .read), (m, .reduce)].Sublist log

instance [DecidableEq M] (m : M) (log : List (M × Event)) : Decidable (Collected m log) :=
  inferInstanceAs (Decidable (List.Sublist _ _))

inductive Progress (m : M) (w : World V M) : Prop
  | stops {t : Thread} : (w.mon m).stopped = false → .stop m ∈ w.todo t → Progress m w
  | reads {op : Op M} : op = .read m ∨ op = .readDone m → [op, .reduce m].Sublist (w.todo (w.mon m).owner) →
      Progress m w
  | reduces : (m, .read) ∈ w.round → .reduce m ∈ w.todo (w.mon m).owner → Progress m w
  | done : Collected m w.round → Progress m w

/-- Nobody resets a monitor, a thread that stops `m` reads and reduces it afterwards, and the round makes progress
with `m`. -/
structure Collecting (m : M) (w : World V M) : Prop where
  noReset : ∀ t, NoReset (w.todo t)
  follows : ∀ t, Follows (.stop m) [.read m, .reduce m] (w.todo t)
  progress : Progress m w

/-- The `eventset_read` of the next operation succeeds. -/
def readOk (a : Answer V) : List (Op M) → Bool
  | .read _ :: _ => a.ok
  | _ => true

/-- `m` runs, or belongs to a core thread that visits it. -/
def covered [DecidableEq M] (w : World V M) (m : M) : Bool :=
  !(w.mon m).stopped ||
    match (w.mon m).owner with
    | .main => false
    | .core i => decide (m ∈ w.lib.visits i)

/-! ## The start and the end of a round -/

section Ends
variable {w : World V M} {m : M}

theorem collecting_update [DecidableEq M] (hmain : w.todo .main = []) {i : Nat} (hm : m ∈ w.lib.visits i)
    (hc : covered w m = true) : Collecting m w.update := by
  have hsub : [Op.read m, .reduce m].Sublist [.read m, .reduce m, .start m] := by simp
  refine ⟨World.update_noReset hmain,
    World.update_todo_all hmain trivial fun j => (hmonitorThread_follows w.lib j m).mono hsub, ?_⟩
  have hstop : ∀ {j}, m ∈ w.lib.visits j → .stop m ∈ hmonitorThread w.lib j := fun hv => by
    simp [hmonitorThread, collect, hv]
  cases hs : (w.mon m).stopped with
  | false => exact .stops (t := .core i) hs (hstop hm)
  | true =>
    rw [covered, hs] at hc
    cases ho : (w.mon m).owner with
    | main => rw [ho] at hc; cases hc
    | core j =>
      rw [ho] at hc
      have hv : m ∈ w.lib.visits j := of_decide_eq_true hc
      have hown : (w.update.mon m).owner = .core j := ho
      refine .reads (Or.inl rfl) ?_
      rw [hown]
      exact ((hmonitorThread_follows w.lib j m).mono hsub).of_mem (hstop hv)

/-- When no thread is going to reduce `m`, the round has read and reduced it. -/
theorem Collecting.collected (h : Collecting m w) (hno : ∀ t, .reduce m ∉ w.todo t) : Collected m w.round := by
  cases h.progress with
  | @stops t _ hst =>
    have hsub := (h.follows t).of_mem hst
    exact absurd (hsub.subset (by simp)) (hno t)
  | reads _ hsub => exact absurd (hsub.subset (by simp)) (hno _)
  | reduces _ hmem => exact absurd hmem (hno _)
  | done hdone => exact hdone

end Ends

/-! ## A step -/

section Steps
variable [DecidableEq M] {w w' : World V M} {m : M} {t : Thread} {op : Op M} {ops : List (Op M)} {e : Effect V M}

theorem mem_of_pair_sublist {α : Type} {x y z : α} {l : List α} (h : [x, y].Sublist (z :: l)) : y ∈ l := by
  cases h with
  | cons _ h => exact h.subset (by simp)
  | cons_cons _ h => exact h.subset List.mem_cons_self

/-- An operation that leaves the owner of `m` and does not stop a running `m`: the progress stays, unless the
operation is the owner's; `hown` says what it leaves then. -/
theorem Progress.commit (h : Progress m w) (htodo : w.todo t = op :: ops)
    (hs : (w.mon m).stopped = false → ((w.commit t op.target e ops).mon m).stopped = false)
    (ho : ((w.commit t op.target e ops).mon m).owner = (w.mon m).owner)
    (hstop : op ≠ .stop m ∨ (w.mon m).stopped = true)
    (hown : (w.mon m).owner = t →
      (∀ x, x = .read m ∨ x = .readDone m → [x, .reduce m].Sublist (op :: ops) →
        Progress m (w.commit t op.target e ops)) ∧
      ((m, .read) ∈ w.round → .reduce m ∈ op :: ops → Progress m (w.commit t op.target e ops))) :
    Progress m (w.commit t op.target e ops) := by
  cases h with
  | @stops u hrun hmem =>
    have hop : op ≠ .stop m := hstop.resolve_right fun h1 => absurd (hrun.symm.trans h1) (by decide)
    exact .stops (t := u) (hs hrun) (w.commit_todo_mem t _ e ops htodo hmem fun _ => hop.symm)
  | @reads x hx hsub =>
    by_cases hu : (w.mon m).owner = t
    · rw [hu, htodo] at hsub
      exact (hown hu).1 x hx hsub
    · refine .reads hx ?_
      rw [ho, World.commit_todo_ne _ _ _ _ _ hu]
      exact hsub
  | reduces hlog hmem =>
    by_cases hu : (w.mon m).owner = t
    · rw [hu, htodo] at hmem
      exact (hown hu).2 hlog hmem
    · refine .reduces (List.mem_append_left _ hlog) ?_
      rw [ho, World.commit_todo_ne _ _ _ _ _ hu]
      exact hmem
  | done hdone => exact .done (hdone.trans (List.sublist_append_left _ _))

/-- The operations that have nothing to do with the progress. -/
theorem Progress.frame (h : Progress m w) (htodo : w.todo t = op :: ops)
    (hs : (w.mon m).stopped = false → ((w.commit t op.target e ops).mon m).stopped = false)
    (ho : ((w.commit t op.target e ops).mon m).owner = (w.mon m).owner)
    (hstop : op ≠ .stop m ∨ (w.mon m).stopped = true)
    (hread : op ≠ .read m ∧ op ≠ .readDone m ∧ op ≠ .reduce m ∨ (w.mon m).owner ≠ t) :
    Progress m (w.commit t op.target e ops) := by
  refine h.commit htodo hs ho hstop fun hu => ?_
  obtain ⟨h1, h2, h3⟩ := hread.resolve_right (not_not_intro hu)
  constructor
  · intro x hx hsub
    have hne : op ≠ x := by
      rcases hx with rfl | rfl
      · exact h1
      · exact h2
    refine .reads hx ?_
    rw [ho, hu, World.commit_todo_self]
    cases hsub with
    | cons _ hsub => exact hsub.trans (List.sublist_append_right _ _)
    | cons_cons _ _ => exact absurd rfl hne
  · intro hlog hmem
    refine .reduces (List.mem_append_left _ hlog) ?_
    rw [ho, hu, World.commit_todo_self]
    exact List.mem_append_right _ ((List.mem_cons.mp hmem).resolve_left fun h0 => h3 h0.symm)

/-- The thread `t` takes `m`, with a read and a reduction of it to make. -/
theorem Progress.takes (ho : ((w.commit t op.target e ops).mon m).owner = t)
    (hsub : [Op.read m, .reduce m].Sublist (e.ops ++ ops)) : Progress m (w.commit t op.target e ops) := by
  refine .reads (Or.inl rfl) ?_
  rw [ho, World.commit_todo_self]
  exact hsub

variable [Double V] {a : Answer V}

/-- The owner's read, the end of its read, and its reduction. -/
theorem Progress.quiet (h : Progress m w) (htodo : w.todo t = op :: ops) (he : op.effect t a w.mon = some e)
    (hok : readOk a (op :: ops) = true) (hm : op.target = m) (hs : op.steers = false) :
    Progress m (w.commit t op.target e ops) := by
  have hstop : op ≠ .stop m := fun h0 => by rw [h0] at hs; cases hs
  have hs' : (w.mon m).stopped = false → ((w.commit t op.target e ops).mon m).stopped = false := fun hrun => by
    subst hm
    rw [World.commit_mon_self, (Op.effect_unsteered hs he).1, hrun]
  have ho : ((w.commit t op.target e ops).mon m).owner = (w.mon m).owner := by
    subst hm
    rw [World.commit_mon_self, (Op.effect_unsteered hs he).2]
  by_cases hu : (w.mon m).owner = t
  · have htodo' : (w.commit t op.target e ops).todo ((w.commit t op.target e ops).mon m).owner = e.ops ++ ops := by
      rw [ho, hu, World.commit_todo_self]
    have hreads : ∀ {x}, x = .read m ∨ x = .readDone m → [x, .reduce m].Sublist (e.ops ++ ops) →
        Progress m (w.commit t op.target e ops) := fun hx hsub => .reads hx (htodo'.symm ▸ hsub)
    have hreduces : .read ∈ e.events → .reduce m ∈ ops → Progress m (w.commit t op.target e ops) := by
      intro hev hmem
      refine .reduces ?_ (htodo'.symm ▸ List.mem_append_right _ hmem)
      exact List.mem_append_right _ (List.mem_map.mpr ⟨_, hev, by rw [hm]⟩)
    have hcommit := h.commit htodo hs' ho (Or.inl hstop)
    cases op with
    | read x =>
      obtain rfl : x = m := hm
      -- the row is read at once, or after the children
      have hleft : .reduce x ∈ ops → Progress x (w.commit t x e ops) := by
        intro hmem
        rcases Op.read_cases he with ⟨hne, -⟩ | ⟨-, -, -, -, ⟨-, hev, -⟩ | ⟨pushed, -, hops, -⟩⟩
        · exact absurd hu hne
        · rw [if_pos (show a.ok = true from hok)] at hev
          exact hreduces (by rw [hev]; simp) hmem
        · refine hreads (Or.inr rfl) ?_
          rw [hops, List.append_assoc]
          exact ((List.singleton_sublist.mpr hmem).cons_cons _).trans (List.sublist_append_right _ _)
      exact hcommit fun _ => ⟨fun _ _ hsub => hleft (mem_of_pair_sublist hsub),
        fun _ hmem => hleft ((List.mem_cons.mp hmem).resolve_left (by simp))⟩
    | readDone x =>
      obtain rfl : x = m := hm
      have hev : .read ∈ e.events := by cases he; exact List.mem_cons_self
      exact hcommit fun _ => ⟨fun _ _ hsub => hreduces hev (mem_of_pair_sublist hsub),
        fun _ hmem => hreduces hev ((List.mem_cons.mp hmem).resolve_left (by simp))⟩
    | reduce x =>
      obtain rfl : x = m := hm
      have hev : e.events = [.reduce] := by
        cases he
        show (hmonitorReduce t (w.mon x)).events = _
        unfold hmonitorReduce
        rw [if_pos hu]
      refine hcommit fun _ => ⟨fun y hy hsub => hreads hy ?_, fun hlog _ => .done ?_⟩
      · cases hsub with
        | cons _ hsub => exact hsub.trans (List.sublist_append_right _ _)
        | cons_cons _ _ => rcases hy with hy | hy <;> cases hy
      · rw [World.commit_round, hev]
        exact (List.singleton_sublist.mpr hlog).append (List.Sublist.refl [(x, Event.reduce)])
    | start x | stop x | reset x | lockChild x => cases hs
    | blocked x | unlock x | release x | copySamples x base c | copyEvents x base c | addEvents x base c =>
      exact h.frame htodo hs' ho (Or.inl hstop) (Or.inl ⟨by simp, by simp, by simp⟩)
  · exact h.frame htodo hs' ho (Or.inl hstop) (Or.inr hu)

theorem Collecting.step {l : Thread × Answer V} (h : Collecting m w) (hok : readOk l.2 (w.todo l.1) = true)
    (hn : w.step l.2 l.1 = some w') : Collecting m w' := by
  obtain ⟨t, a⟩ := l
  obtain ⟨op, ops, e, htodo, he, rfl⟩ := World.step_cases hn
  have hp := Op.effect_pushes he
  have hnr : NoReset (op :: ops) := htodo ▸ h.noReset t
  have hf : Follows (.stop m) [.read m, .reduce m] (op :: ops) := htodo ▸ h.follows t
  refine ⟨w.commit_todo_all t _ e ops h.noReset (hnr.step hp), w.commit_todo_all t _ e ops h.follows
    ((Follows.of_not_mem (hp.not_startStop m).2).append hf.tail), ?_⟩
  by_cases hm : op.target = m
  · by_cases hs : op.steers = true
    · have hpr := h.progress
      cases op with
      | start x =>
        obtain rfl : x = m := hm
        cases he
        refine hpr.frame htodo (fun hrun => ?_) ?_ (Or.inl (by simp)) (Or.inl ⟨by simp, by simp, by simp⟩)
        · rw [Op.target, World.commit_mon_self, hmonitorStart_of_running t a hrun]
          exact hrun
        · rw [Op.target, World.commit_mon_self]
          exact hmonitorStart_owner t a _
      | stop x =>
        obtain rfl : x = m := hm
        cases he
        by_cases hst : (w.mon x).stopped = true
        · refine hpr.frame htodo (fun hrun => absurd (hrun.symm.trans hst) (by decide)) ?_ (Or.inr hst)
            (Or.inl ⟨by simp, by simp, by simp⟩)
          rw [Op.target, World.commit_mon_self, hmonitorStop_of_stopped t a hst]
          rfl
        · -- the thread that stops `m` becomes its owner
          rw [Bool.not_eq_true] at hst
          refine .takes ?_ (hf.head.trans (List.sublist_append_right _ _))
          rw [Op.target, World.commit_mon_self, hmonitorStop_of_running t a hst]
          rfl
      | lockChild c =>
        obtain rfl : c = m := hm
        have hsub : [Op.read c, .reduce c].Sublist ([.read c, .reduce c, .release c] ++ ops) := by simp
        rcases Op.lockChild_cases he with ⟨-, rfl⟩ | ⟨-, ho, rfl⟩ | ⟨-, -, rfl⟩
        · exact .takes (by rw [Op.target, World.commit_mon_self]) hsub
        · exact .takes (by rw [Op.target, World.commit_mon_self]; exact ho) hsub
        · exact hpr.frame htodo (fun hrun => by rw [Op.target, World.commit_mon_self]; exact hrun)
            (by rw [Op.target, World.commit_mon_self]) (Or.inl (by simp)) (Or.inl ⟨by simp, by simp, by simp⟩)
      | reset x => exact absurd List.mem_cons_self (hnr x)
      | read | reduce | blocked | unlock | release | copySamples | copyEvents | addEvents | readDone => cases hs
    · rw [Bool.not_eq_true] at hs
      exact h.progress.quiet htodo he (htodo ▸ hok) hm hs
  · have hmon := w.commit_mon_ne t op.target e ops (Ne.symm hm)
    have hne : ∀ {o : Op M}, o.target = m → op ≠ o := fun ho h0 => hm (by rw [h0, ho])
    exact h.progress.frame htodo (fun hrun => by rw [hmon, hrun]) (by rw [hmon]) (Or.inl (hne rfl))
      (Or.inl ⟨hne rfl, hne rfl, hne rfl⟩)

end Steps
end Hmon
