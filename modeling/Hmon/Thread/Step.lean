import Hmon.Registry

/-!
# Calls on monitors, step by step

A thread that runs library code has a list of operations left to do. One step performs the first of them; a call
that runs a chained plugin puts the plugin's own calls in front of the rest.

* `Op` : the operations; `Op.effect` : what one does to its monitor, what it logs and what it leaves to do;
* `World` : the registry, the operations left for each thread, and the log of the round in progress and of what
  came before it;
* `World.step` : one operation of one thread; `World.step_cases` : its inversion;
* `Op.effect_control` : the operations that write the flag, the owner or the mutex of a monitor.
-/

namespace Hmon

/-- What a thread does next. -/
inductive Op (M : Type)
  /-- Calls of `hmonitor_start`, `hmonitor_stop`, `hmonitor_read`, `hmonitor_reduce`, `hmonitor_reset`. -/
  | start (m : M)
  | stop (m : M)
  | read (m : M)
  | reduce (m : M)
  | reset (m : M)
  /-- `hmonitor_trylock(c, 1)` in an `eventset_read`, with the read, the reduction and the release it guards. -/
  | lockChild (c : M)
  /-- In `pthread_mutex_lock`, before `pthread_mutex_unlock`, before `hmonitor_release`. -/
  | blocked (c : M)
  | unlock (c : M)
  | release (c : M)
  /-- The copy of a child's samples or events into the row of `m` that starts at cell `base`. -/
  | copySamples (m : M) (base : Nat) (c : M)
  | copyEvents (m : M) (base : Nat) (c : M)
  | addEvents (m : M) (base : Nat) (c : M)
  /-- `hmonitor_read` returns 1 after the `eventset_read` of a chained plugin. -/
  | readDone (m : M)
  deriving DecidableEq

instance Op.decidableMem {M : Type} [DecidableEq M] (op : Op M) (ops : List (Op M)) : Decidable (op ∈ ops) :=
  inferInstance

/-- The monitor that an operation writes. -/
def Op.target {M : Type} : Op M → M
  | start m | stop m | read m | reduce m | reset m => m
  | lockChild c | blocked c | unlock c | release c => c
  | copySamples m _ _ | copyEvents m _ _ | addEvents m _ _ | readDone m => m

variable {V M : Type}

/-! ## The chained plugins -/

/-- The loop of the hierarchical `hmonitor_eventset_read` into the row of `m` at cell `base`; the offset, `unsigned`
there, is a natural number here. -/
def hierarchicalRead (mon : M → Hmonitor Thread V M) (m : M) : Nat → List M → List (Op M)
  | _, [] => []
  | base, c :: cs => .lockChild c :: .copySamples m base c :: hierarchicalRead mon m (base + (mon c).nSamples) cs

/-- The accumulating `hmonitor_eventset_read`. It dereferences its first child, without a lock. -/
def accumulateRead (m : M) (base : Nat) : List M → Option (List (Op M))
  | [] => none
  | c :: cs =>
    some (.read c :: .reduce c :: .copyEvents m base c :: cs.flatMap fun d => [.lockChild d, .addEvents m base d])

/-- The row of the last read, without its timestamp. -/
def lastRow (c : Hmonitor Thread V M) : List V := (c.events.drop (hmonitorGetEvents c c.last)).take c.nEvents

/-! ## One operation -/

structure Effect (V M : Type) where
  mon : Hmonitor Thread V M
  events : List Event
  ops : List (Op M)

def Outcome.effect (o : Outcome Thread V M) : Effect V M := ⟨o.mon, o.events, []⟩

/-- The operation of the thread `self`; `none` while the thread is blocked, and where the C code crashes. -/
def Op.effect [Double V] (self : Thread) (a : Answer V) (mon : M → Hmonitor Thread V M) : Op M → Option (Effect V M)
  | .start m => some (hmonitorStart self a (mon m)).effect
  | .stop m => some (hmonitorStop self a (mon m)).effect
  | .read m =>
    if (mon m).owner = self then
      let next := nextRow a.now (mon m)
      let base := hmonitorGetEvents next next.last
      match (mon m).eventset with
      | .leaf => some (hmonitorRead self a (mon m)).effect
      | .hierarchical cs => some ⟨next, [.sample], hierarchicalRead mon m base cs ++ [.readDone m]⟩
      | .accumulate cs => (accumulateRead m base cs).map fun ops => ⟨next, [.sample], ops ++ [.readDone m]⟩
    else some ⟨mon m, [], []⟩
  | .reduce m => some (hmonitorReduce self (mon m)).effect
  | .reset m => some ⟨hmonitorReset a.now (mon m), [], (mon m).eventset.childEvents.map .reset⟩
  | .lockChild c =>
    match hmonitorTrylock self true (mon c) with
    | (.ret r, h) => some ⟨h, [], if r = 1 then [.read c, .reduce c, .release c] else []⟩
    | (.waits, h) => some ⟨h, [], [.blocked c]⟩
  | .blocked c => if (mon c).mutex = none then some ⟨{ mon c with mutex := some self }, [], [.unlock c]⟩ else none
  | .unlock c => some ⟨Hmon.unlock (mon c), [], []⟩
  | .release c => some ⟨(hmonitorRelease self (mon c)).2, [], []⟩
  | .copySamples m base c =>
    some ⟨{ mon m with events := writeCells (mon m).events base ((mon c).samples.take (mon c).nSamples) }, [], []⟩
  | .copyEvents m base c => some ⟨{ mon m with events := writeCells (mon m).events base (lastRow (mon c)) }, [], []⟩
  | .addEvents m base c =>
    let sum := List.zipWith (· + ·) ((mon m).events.drop base) (lastRow (mon c))
    some ⟨{ mon m with events := writeCells (mon m).events base sum }, [], []⟩
  | .readDone m => some ⟨mon m, [.read], []⟩

/-! ## The world -/

structure World (V M : Type) where
  lib : Registry V M
  todo : Thread → List (Op M)
  /-- What the calls did before the round in progress, and in it. -/
  past : List (M × Event)
  round : List (M × Event)

namespace World

abbrev mon (w : World V M) : M → Hmonitor Thread V M := w.lib.mon

def history (w : World V M) : List (M × Event) := w.past ++ w.round

variable [DecidableEq M]

/-- Write a monitor and log. -/
def put (w : World V M) (m : M) (h : Hmonitor Thread V M) (events : List Event) : World V M :=
  { w with lib := w.lib.setMon m h, round := w.round ++ events.map fun e => (m, e) }

/-- The operation on `m` of the thread `t` had the effect `e`; the thread goes on with `e.ops` and then `ops`. -/
def commit (w : World V M) (t : Thread) (m : M) (e : Effect V M) (ops : List (Op M)) : World V M :=
  { w.put m e.mon e.events with todo := Function.update w.todo t (e.ops ++ ops) }

/-- One operation of the thread `t`. -/
def step [Double V] (a : Answer V) (t : Thread) (w : World V M) : Option (World V M) :=
  match w.todo t with
  | [] => none
  | op :: ops => (op.effect t a w.mon).map fun e => w.commit t op.target e ops

theorem step_cases [Double V] {a : Answer V} {t : Thread} {w w' : World V M} (h : w.step a t = some w') :
    ∃ op ops e, w.todo t = op :: ops ∧ op.effect t a w.mon = some e ∧ w' = w.commit t op.target e ops := by
  unfold step at h
  split at h
  · cases h
  · rename_i op ops hop
    obtain ⟨e, he, rfl⟩ := Option.map_eq_some_iff.mp h
    exact ⟨op, ops, e, hop, he, rfl⟩

section Commit
variable (w : World V M) (t : Thread) (m : M) (e : Effect V M) (ops : List (Op M))

@[simp] theorem commit_mon_self : (w.commit t m e ops).mon m = e.mon := Function.update_self ..

theorem commit_mon_ne {x : M} (hx : x ≠ m) : (w.commit t m e ops).mon x = w.mon x := Function.update_of_ne hx ..

@[simp] theorem commit_todo_self : (w.commit t m e ops).todo t = e.ops ++ ops := Function.update_self ..

theorem commit_todo_ne {u : Thread} (hu : u ≠ t) : (w.commit t m e ops).todo u = w.todo u :=
  Function.update_of_ne hu ..

/-- A property of what each thread has left to do. -/
theorem commit_todo_all {Q : List (Op M) → Prop} (h : ∀ u, Q (w.todo u)) (hq : Q (e.ops ++ ops)) (u : Thread) :
    Q ((w.commit t m e ops).todo u) := by
  by_cases hu : u = t
  · subst hu
    rwa [commit_todo_self]
  · rw [commit_todo_ne w t m e ops hu]
    exact h u

/-- What a thread has left to do, other than the operation performed, is left. -/
theorem commit_todo_mem {u : Thread} {op o : Op M} (htodo : w.todo t = op :: ops) (h : o ∈ w.todo u)
    (ho : u = t → o ≠ op) : o ∈ (w.commit t m e ops).todo u := by
  by_cases hu : u = t
  · subst hu
    rw [htodo] at h
    rw [commit_todo_self]
    exact List.mem_append_right _ ((List.mem_cons.mp h).resolve_left (ho rfl))
  · rw [commit_todo_ne w t m e ops hu]
    exact h

@[simp] theorem commit_round : (w.commit t m e ops).round = w.round ++ e.events.map fun e => (m, e) := rfl

end Commit

theorem step_todo_ne [Double V] {a : Answer V} {t u : Thread} {w w' : World V M} (h : w.step a t = some w')
    (hu : u ≠ t) : w'.todo u = w.todo u := by
  obtain ⟨op, ops, e, -, -, rfl⟩ := step_cases h
  exact w.commit_todo_ne t _ e ops hu

end World

/-! ## What an operation can do -/

/-- The operations that write no flag, owner or mutex. -/
def Op.quiet : Op M → Bool
  | .read _ | .reduce _ | .copySamples _ _ _ | .copyEvents _ _ _ | .addEvents _ _ _ | .readDone _ => true
  | _ => false

/-- The operations that can write a flag or an owner. -/
def Op.steers : Op M → Bool
  | .start _ | .stop _ | .reset _ | .lockChild _ => true
  | _ => false

/-- The operations that a read of a chained monitor `m` over the children `cs` can leave to do. -/
inductive ChildOp (m : M) (cs : List M) : Op M → Prop
  | lockChild {c : M} : c ∈ cs → ChildOp m cs (.lockChild c)
  | read {c : M} : c ∈ cs → ChildOp m cs (.read c)
  | reduce {c : M} : c ∈ cs → ChildOp m cs (.reduce c)
  | copySamples (base : Nat) (c : M) : ChildOp m cs (.copySamples m base c)
  | copyEvents (base : Nat) (c : M) : ChildOp m cs (.copyEvents m base c)
  | addEvents (base : Nat) (c : M) : ChildOp m cs (.addEvents m base c)

theorem ChildOp.mono {m : M} {cs cs' : List M} (h : cs ⊆ cs') {op : Op M} (ho : ChildOp m cs op) :
    ChildOp m cs' op := by
  cases ho with
  | lockChild hc => exact .lockChild (h hc)
  | read hc => exact .read (h hc)
  | reduce hc => exact .reduce (h hc)
  | copySamples base c => exact .copySamples base c
  | copyEvents base c => exact .copyEvents base c
  | addEvents base c => exact .addEvents base c

theorem hierarchicalRead_childOp (mon : M → Hmonitor Thread V M) (m : M) (base : Nat) (cs : List M) :
    ∀ op ∈ hierarchicalRead mon m base cs, ChildOp m cs op := by
  induction cs generalizing base with
  | nil => intro op hop; cases hop
  | cons c cs ih =>
    intro op hop
    rw [hierarchicalRead, List.mem_cons, List.mem_cons] at hop
    rcases hop with rfl | rfl | hop
    · exact .lockChild List.mem_cons_self
    · exact .copySamples base c
    · exact (ih _ op hop).mono (List.subset_cons_self c cs)

theorem accumulateRead_childOp {m : M} {base : Nat} {cs : List M} {ops : List (Op M)}
    (h : accumulateRead m base cs = some ops) : ∀ op ∈ ops, ChildOp m cs op := by
  cases cs with
  | nil => cases h
  | cons c cs =>
    cases h
    intro op hop
    rw [List.mem_cons, List.mem_cons, List.mem_cons, List.mem_flatMap] at hop
    rcases hop with rfl | rfl | rfl | ⟨d, hd, hop⟩
    · exact .read List.mem_cons_self
    · exact .reduce List.mem_cons_self
    · exact .copyEvents base c
    · rw [List.mem_cons, List.mem_singleton] at hop
      rcases hop with rfl | rfl
      · exact .lockChild (List.mem_cons_of_mem c hd)
      · exact .addEvents base d

section Effect
variable [Double V] {self : Thread} {a : Answer V} {mon : M → Hmonitor Thread V M} {op : Op M} {e : Effect V M}

/-- The read of a thread that is not the owner does nothing; the owner takes a row, and a chained monitor then
reads its children. -/
theorem Op.read_cases {m : M} (h : (Op.read m).effect self a mon = some e) :
    (mon m).owner ≠ self ∧ e = ⟨mon m, [], []⟩ ∨
    (mon m).owner = self ∧ SameControl (mon m) e.mon ∧ e.mon.location = (mon m).location ∧
      e.mon.total = u32 ((mon m).total + 1) ∧
      ((mon m).eventset = .leaf ∧ e.events = (if a.ok then [.sample, .read] else [.sample]) ∧ e.ops = [] ∨
        ∃ ops, e.events = [.sample] ∧ e.ops = ops ++ [.readDone m] ∧
          ∀ op ∈ ops, ChildOp m (mon m).eventset.childEvents op) := by
  simp only [effect] at h
  by_cases ho : (mon m).owner = self
  · rw [if_pos ho] at h
    refine Or.inr ⟨ho, ?_⟩
    cases hev : (mon m).eventset with
    | leaf =>
      rw [hev] at h
      cases h
      refine ⟨hmonitorRead_control self a (mon m), ?_⟩
      simp only [Outcome.effect, hmonitorRead, if_pos ho]
      cases a.ok <;> simp [nextRow, hmonitorSetTimestamp]
    | hierarchical cs =>
      rw [hev] at h
      cases h
      exact ⟨nextRow_control a.now (mon m), rfl, rfl, Or.inr ⟨_, rfl, rfl, hierarchicalRead_childOp mon m _ cs⟩⟩
    | accumulate cs =>
      rw [hev] at h
      obtain ⟨ops, hops, rfl⟩ := Option.map_eq_some_iff.mp h
      exact ⟨nextRow_control a.now (mon m), rfl, rfl, Or.inr ⟨ops, rfl, rfl, accumulateRead_childOp hops⟩⟩
  · rw [if_neg ho] at h
    cases h
    exact Or.inl ⟨ho, rfl⟩

/-- `hmonitor_trylock(c, 1)` locks a free mutex, is re-entrant for the owner, and waits otherwise. -/
theorem Op.lockChild_cases {c : M} (h : (Op.lockChild c).effect self a mon = some e) :
    (mon c).mutex = none ∧
        e = ⟨{ mon c with owner := self, mutex := some self }, [], [.read c, .reduce c, .release c]⟩ ∨
      (mon c).mutex ≠ none ∧ (mon c).owner = self ∧ e = ⟨mon c, [], [.read c, .reduce c, .release c]⟩ ∨
      (mon c).mutex ≠ none ∧ (mon c).owner ≠ self ∧ e = ⟨mon c, [], [.blocked c]⟩ := by
  simp only [effect, hmonitorTrylock] at h
  cases hm : (mon c).mutex with
  | none =>
    rw [hm] at h
    cases h
    exact Or.inl ⟨rfl, rfl⟩
  | some u =>
    rw [hm] at h
    refine Or.inr ?_
    by_cases ho : (mon c).owner = self
    · rw [if_pos ho] at h
      cases h
      exact Or.inl ⟨nofun, ho, rfl⟩
    · rw [if_neg ho, if_pos trivial] at h
      cases h
      exact Or.inr ⟨nofun, ho, rfl⟩

/-- The operations that only read, reduce and copy leave the flag, the owner and the mutex alone. -/
theorem Op.effect_quiet (hq : op.quiet = true) (h : op.effect self a mon = some e) :
    SameControl (mon op.target) e.mon := by
  cases op with
  | read m =>
    rcases Op.read_cases h with ⟨-, rfl⟩ | ⟨-, hc, -⟩
    · exact ⟨rfl, rfl, rfl, rfl⟩
    · exact hc
  | reduce m => cases h; exact hmonitorReduce_control self (mon m)
  | copySamples m base c => cases h; exact ⟨rfl, rfl, rfl, rfl⟩
  | copyEvents m base c => cases h; exact ⟨rfl, rfl, rfl, rfl⟩
  | addEvents m base c => cases h; exact ⟨rfl, rfl, rfl, rfl⟩
  | readDone m => cases h; exact ⟨rfl, rfl, rfl, rfl⟩
  | start m | stop m | reset m => cases hq
  | lockChild c | blocked c | unlock c | release c => cases hq

theorem Op.effect_unsteered (hs : op.steers = false) (h : op.effect self a mon = some e) :
    e.mon.stopped = (mon op.target).stopped ∧ e.mon.owner = (mon op.target).owner := by
  by_cases hq : op.quiet = true
  · have hc := Op.effect_quiet hq h
    exact ⟨hc.stopped, hc.owner⟩
  · cases op with
    | blocked c =>
      simp only [effect] at h
      split_ifs at h
      cases h
      exact ⟨rfl, rfl⟩
    | unlock c => cases h; exact ⟨rfl, rfl⟩
    | release c =>
      cases h
      simp only [hmonitorRelease]
      split_ifs <;> exact ⟨rfl, rfl⟩
    | start m | stop m | reset m | lockChild m => cases hs
    | read m | reduce m | readDone m => exact absurd rfl hq
    | copySamples m base c | copyEvents m base c | addEvents m base c => exact absurd rfl hq

/-- An operation takes a row of its monitor, reduces it, resets it, writes its cells, or touches nothing but its stopped
flag, its owner and its mutex. -/
theorem Op.effect_cases (h : op.effect self a mon = some e) :
    (∃ now events, e.mon = { nextRow now (mon op.target) with events := events }) ∨
    e.mon = (hmonitorReduce self (mon op.target)).mon ∨ e.mon = hmonitorReset a.now (mon op.target) ∨
    (∃ events, e.mon = { mon op.target with events := events }) ∨ OnlyControl (mon op.target) e.mon := by
  cases op with
  | start m =>
    cases h
    exact .inr (.inr (.inr (.inr (hmonitorStart_onlyControl self a (mon m)))))
  | stop m =>
    cases h
    exact .inr (.inr (.inr (.inr (hmonitorStop_onlyControl self a (mon m)))))
  | read m =>
    simp only [effect] at h
    split_ifs at h with ho
    · refine .inl ?_
      cases hev : (mon m).eventset with
      | leaf =>
        rw [hev] at h
        cases h
        simp only [Outcome.effect, hmonitorRead, if_pos ho]
        split_ifs <;> exact ⟨a.now, _, rfl⟩
      | hierarchical cs =>
        rw [hev] at h
        cases h
        exact ⟨a.now, _, rfl⟩
      | accumulate cs =>
        rw [hev] at h
        obtain ⟨ops, -, rfl⟩ := Option.map_eq_some_iff.mp h
        exact ⟨a.now, _, rfl⟩
    · cases h
      exact .inr (.inr (.inr (.inl ⟨_, rfl⟩)))
  | reduce m =>
    cases h
    exact .inr (.inl rfl)
  | reset m =>
    cases h
    exact .inr (.inr (.inl rfl))
  | lockChild c =>
    refine .inr (.inr (.inr (.inr ?_)))
    rcases Op.lockChild_cases h with ⟨-, rfl⟩ | ⟨-, -, rfl⟩ | ⟨-, -, rfl⟩ <;> exact ⟨_, _, _, rfl⟩
  | blocked c =>
    simp only [effect] at h
    split_ifs at h
    cases h
    exact .inr (.inr (.inr (.inr ⟨_, _, _, rfl⟩)))
  | release c =>
    cases h
    exact .inr (.inr (.inr (.inr (hmonitorRelease_onlyControl self (mon c)))))
  | unlock c =>
    cases h
    exact .inr (.inr (.inr (.inr ⟨_, _, _, rfl⟩)))
  | copySamples m base c | copyEvents m base c | addEvents m base c | readDone m =>
    cases h
    exact .inr (.inr (.inr (.inl ⟨_, rfl⟩)))

/-- No operation changes a monitor's object or children. -/
theorem Op.effect_shape (h : op.effect self a mon = some e) : SameShape (mon op.target) e.mon := by
  rcases Op.effect_cases h with ⟨_, _, he⟩ | he | he | ⟨_, he⟩ | hcontrol
  · rw [he]
    exact ⟨rfl, rfl⟩
  · rw [he, hmonitorReduce]
    split_ifs <;> exact ⟨rfl, rfl⟩
  · rw [he]
    exact ⟨rfl, rfl⟩
  · rw [he]
    exact ⟨rfl, rfl⟩
  · exact hcontrol.shape

/-- No operation changes the number of samples of a monitor. -/
theorem Op.effect_nSamples (h : op.effect self a mon = some e) : e.mon.nSamples = (mon op.target).nSamples := by
  rcases Op.effect_cases h with ⟨_, _, he⟩ | he | he | ⟨_, he⟩ | ⟨_, _, _, he⟩
  · rw [he]
    rfl
  · rw [he, hmonitorReduce]
    split_ifs <;> rfl
  · rw [he]
    rfl
  · rw [he]
  · rw [he]

/-- Only a read takes a row. -/
theorem Op.effect_total (hr : ∀ p, op ≠ .read p) (hz : ∀ p, op ≠ .reset p) (h : op.effect self a mon = some e) :
    e.mon.total = (mon op.target).total ∧ .sample ∉ e.events := by
  cases op with
  | start m =>
    cases h
    simp only [Outcome.effect, hmonitorStart, Hmon.unlock, target]
    split_ifs <;> simp
  | stop m =>
    cases h
    by_cases hs : (mon m).stopped = true
    · rw [hmonitorStop_of_stopped self a hs]
      exact ⟨rfl, List.not_mem_nil⟩
    · rw [Bool.not_eq_true] at hs
      rw [hmonitorStop_of_running self a hs]
      simp [Outcome.effect, target]
  | read m => exact absurd rfl (hr m)
  | reduce m =>
    cases h
    simp only [Outcome.effect, hmonitorReduce, target]
    split_ifs <;> simp
  | reset m => exact absurd rfl (hz m)
  | lockChild c => rcases Op.lockChild_cases h with ⟨-, rfl⟩ | ⟨-, -, rfl⟩ | ⟨-, -, rfl⟩ <;> simp [target]
  | blocked c =>
    simp only [effect] at h
    split_ifs at h
    cases h
    simp [target]
  | release c =>
    cases h
    simp only [hmonitorRelease, target, Hmon.unlock]
    split_ifs <;> simp
  | unlock m | readDone m => cases h; simp [target, Hmon.unlock]
  | copySamples m base c | copyEvents m base c | addEvents m base c => cases h; simp [target]

/-- What an operation leaves to do, by the operation: the calls on the children of a chained monitor, the rest of
a lock, or the resets of the children. -/
inductive Pushes (mon : M → Hmonitor Thread V M) : Op M → List (Op M) → Prop
  | none (op : Op M) : Pushes mon op []
  | read (m : M) {ops : List (Op M)} :
      (∀ op ∈ ops, ChildOp m (mon m).eventset.childEvents op) → Pushes mon (.read m) (ops ++ [.readDone m])
  | locked (c : M) : Pushes mon (.lockChild c) [.read c, .reduce c, .release c]
  | waits (c : M) : Pushes mon (.lockChild c) [.blocked c]
  | unlock (c : M) : Pushes mon (.blocked c) [.unlock c]
  | reset (m : M) : Pushes mon (.reset m) ((mon m).eventset.childEvents.map .reset)

theorem Op.effect_pushes (h : op.effect self a mon = some e) : Pushes mon op e.ops := by
  cases op with
  | read m =>
    rcases Op.read_cases h with ⟨-, rfl⟩ | ⟨-, -, -, -, ⟨-, -, he⟩ | ⟨ops, -, he, hops⟩⟩
    · exact .none _
    · rw [he]; exact .none _
    · rw [he]; exact .read m hops
  | lockChild c =>
    rcases Op.lockChild_cases h with ⟨-, rfl⟩ | ⟨-, -, rfl⟩ | ⟨-, -, rfl⟩
    · exact .locked c
    · exact .locked c
    · exact .waits c
  | blocked c =>
    simp only [effect] at h
    split_ifs at h
    cases h
    exact .unlock c
  | reset m => cases h; exact .reset m
  | start m | stop m | reduce m => cases h; exact .none _
  | unlock c | release c | readDone c => cases h; exact .none _
  | copySamples m base c | copyEvents m base c | addEvents m base c => cases h; exact .none _

end Effect

section Pushes
variable {mon : M → Hmonitor Thread V M} {op : Op M}

/-- Starts and stops are calls of the main program or of a pass of a round. -/
theorem Pushes.not_startStop {ops : List (Op M)} (h : Pushes mon op ops) (x : M) :
    .start x ∉ ops ∧ .stop x ∉ ops := by
  cases h with
  | read m hops =>
    constructor <;>
    · intro hx
      rw [List.mem_append, List.mem_singleton] at hx
      rcases hx with hx | hx
      · cases hops _ hx
      · cases hx
  | none | locked c | waits c | unlock c | reset m => simp

/-- No monitor is going to be reset: what a round and the calls inside it never do. -/
def NoReset (ops : List (Op M)) : Prop := ∀ x, .reset x ∉ ops

theorem NoReset.step {ops pushed : List (Op M)} (h : NoReset (op :: ops)) (hp : Pushes mon op pushed) :
    NoReset (pushed ++ ops) := by
  intro x hx
  rcases List.mem_append.mp hx with hx | hx
  · cases hp with
    | read m hops =>
      rw [List.mem_append, List.mem_singleton] at hx
      rcases hx with hx | hx
      · cases hops _ hx
      · cases hx
    | reset m => exact h m List.mem_cons_self
    | none | locked c | waits c | unlock c => simp at hx
  · exact h x (List.mem_cons_of_mem op hx)

end Pushes
end Hmon
