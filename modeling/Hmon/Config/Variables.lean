import Hmon.Config.Blocks
import Hmon.Config.Compile
import Hmon.Monitor.Window

/-!
# What the variables of a reduction refer to

* `Through` : the texts of variables go through a production into the code of the reduction; `variables_compiled` :
  **so do those of a block**;
* `ReadsElement` : what C makes of the text of a variable;
* `Cell`, `Hmonitor.cell` : the cell of a monitor's window that an element of the row is; `Hmonitor.cell_event_iff` :
  **it is one of the events of the row exactly for the numbers of the events**;
* `MonitorOf` : the monitors of a block; `variables_unchecked` : **a variable refers to an event of such a monitor
  exactly when its number is below the number of events**, which nothing checks;
* `variable_past_events` : a block whose variable refers to no event.
-/

namespace Hmon

/-! ## The cells of a monitor -/

/-- A cell of the window, or none. -/
inductive Cell
  | event (row column : Nat)
  | timestamp (row : Nat)
  | outside
  deriving DecidableEq

section Cells
variable {T V M : Type} {m : Hmonitor T V M}

/-- The cell that `events[i]` is, `events` being `hmonitor_get_events(m, m->last)`. -/
def Hmonitor.cell (m : Hmonitor T V M) (i : Int) : Cell :=
  let cell := (hmonitorGetEvents m m.last : Int) + i
  if 0 ≤ cell ∧ cell < m.events.length then
    let row := cell.toNat / (m.nEvents + 1)
    let column := cell.toNat % (m.nEvents + 1)
    if column = m.nEvents then .timestamp row else .event row column
  else .outside

def Cell.row : Cell → Option Nat
  | event row _ => some row
  | timestamp row => some row
  | outside => none

/-- The window as `new_hmonitor` allocates it and the reads leave it, its number of cells being an `unsigned`. -/
structure Windowed (m : Hmonitor T V M) : Prop where
  allocated : Allocated m
  fits : m.window * (m.nEvents + 1) < 2 ^ 32
  last : m.last < m.window

theorem Windowed.length (h : Windowed m) : m.events.length = m.window * (m.nEvents + 1) := by
  have hpos : 0 < m.window := Nat.zero_lt_of_lt h.last
  have hle : 1 * (m.nEvents + 1) ≤ m.window * (m.nEvents + 1) := Nat.mul_le_mul_right _ hpos
  have hn : u32 (m.nEvents + 1) = m.nEvents + 1 := Nat.mod_eq_of_lt (by have := h.fits; omega)
  rw [h.allocated, hn]
  exact Nat.mod_eq_of_lt h.fits

theorem Windowed.base (h : Windowed m) : hmonitorGetEvents m m.last = m.last * (m.nEvents + 1) :=
  offset_eq h.fits h.last (Nat.zero_le m.nEvents)

/-- An element from 0 to the number of events is in the row. -/
theorem Windowed.cell_row (h : Windowed m) {j : Nat} (hj : j ≤ m.nEvents) :
    m.cell j = if j = m.nEvents then .timestamp m.last else .event m.last j := by
  have hle : (m.last + 1) * (m.nEvents + 1) ≤ m.window * (m.nEvents + 1) := Nat.mul_le_mul_right _ h.last
  rw [Nat.succ_mul] at hle
  have hcell : ((m.last * (m.nEvents + 1) : Nat) : Int) + j = ((j + m.last * (m.nEvents + 1) : Nat) : Int) := by omega
  have hrow : (j + m.last * (m.nEvents + 1)) / (m.nEvents + 1) = m.last := by
    rw [Nat.add_mul_div_right _ _ (Nat.succ_pos _), Nat.div_eq_of_lt (by omega), Nat.zero_add]
  have hcolumn : (j + m.last * (m.nEvents + 1)) % (m.nEvents + 1) = j := by
    rw [Nat.add_mul_mod_self_right, Nat.mod_eq_of_lt (by omega)]
  simp only [Hmonitor.cell, h.base, h.length, hcell, Int.toNat_natCast, hrow, hcolumn]
  rw [if_pos ⟨by omega, by omega⟩]

/-- The row has no other element. -/
theorem Windowed.of_row (h : Windowed m) {i : Int} (hi : (m.cell i).row = some m.last) :
    ∃ j : Nat, j ≤ m.nEvents ∧ i = j := by
  unfold Hmonitor.cell at hi
  rw [h.base] at hi
  simp only at hi
  have hmod : ((m.last * (m.nEvents + 1) : Nat) + i).toNat % (m.nEvents + 1) < m.nEvents + 1 :=
    Nat.mod_lt _ (Nat.succ_pos _)
  have hdiv := Nat.div_add_mod ((m.last * (m.nEvents + 1) : Nat) + i).toNat (m.nEvents + 1)
  have hrow : 0 ≤ ((m.last * (m.nEvents + 1) : Nat) : Int) + i ∧
      ((m.last * (m.nEvents + 1) : Nat) + i).toNat / (m.nEvents + 1) = m.last := by
    split_ifs at hi with hin hcol
    · exact ⟨hin.1, Option.some.inj hi⟩
    · exact ⟨hin.1, Option.some.inj hi⟩
    · cases hi
  rw [hrow.2, Nat.mul_comm] at hdiv
  exact ⟨((m.last * (m.nEvents + 1) : Nat) + i).toNat % (m.nEvents + 1), by omega, by omega⟩

/-- **An element of the row is one of its events exactly for the numbers of the events**, -/
theorem Windowed.event_iff (h : Windowed m) (i : Int) :
    (∃ e, m.cell i = .event m.last e) ↔ 0 ≤ i ∧ i < m.nEvents := by
  constructor
  · rintro ⟨e, he⟩
    obtain ⟨j, hj, rfl⟩ := h.of_row (congrArg Cell.row he)
    rw [h.cell_row hj] at he
    split_ifs at he with hn
    omega
  · rintro ⟨h0, hn⟩
    obtain ⟨j, rfl⟩ := Int.eq_ofNat_of_zero_le h0
    exact ⟨j, by rw [h.cell_row (by omega), if_neg (by omega)]⟩

/-- and its timestamp for the number of events itself. -/
theorem Windowed.timestamp_iff (h : Windowed m) (i : Int) : m.cell i = .timestamp m.last ↔ i = m.nEvents := by
  constructor
  · intro he
    obtain ⟨j, hj, rfl⟩ := h.of_row (congrArg Cell.row he)
    rw [h.cell_row hj] at he
    split_ifs at he with hn
    rw [hn]
  · rintro rfl
    rw [h.cell_row (Nat.le_refl _), if_pos rfl]

end Cells

end Hmon

namespace Hmon.Config
open Lib Lib.Regex

/-! ## The texts of the variables -/

/-- The text is in the code of the reduction. -/
def Compiled (f : Fields) (x : Text) : Prop := ∃ code, f.reductionCode = some code ∧ x <:+: code

/-- What was compiled stays, and the variables that were read are compiled. -/
def Through (a b : Fields × List Token) : Prop :=
  ∀ x, Compiled a.1 x ∨ .var x ∈ a.2 → Compiled b.1 x ∨ .var x ∈ b.2

theorem Through.refl (a : Fields × List Token) : Through a a := fun _ h => h

theorem Through.trans {a b c : Fields × List Token} (h : Through a b) (h' : Through b c) : Through a c :=
  fun x hx => h' x (h x hx)

/-- The code stays, and no variable is read. -/
theorem through_of_same {f f' : Fields} {ts : List Token} (us : List Token) (hcode : f'.reductionCode = f.reductionCode)
    (hu : ∀ x, .var x ∉ us) : Through (f, us ++ ts) (f', ts) := by
  rintro x (⟨code, h, hx⟩ | h)
  · exact .inl ⟨code, hcode.trans h, hx⟩
  · exact .inr ((List.mem_append.mp h).resolve_left (hu x))

theorem Derives.isInfix {s : Sym} {ts : List Token} {x : Text} (h : Derives s ts x) : ∀ y, .var y ∈ ts → y <:+: x := by
  have op : ∀ {us vs : List Token} {x y z : Text} {o : Char},
      (Token.var z ∈ us → z <:+: x) → (Token.var z ∈ vs → z <:+: y) →
      Token.var z ∈ us ++ .char o :: vs → z <:+: x ++ o :: y := by
    intro us vs x y z o hx hy hz
    rcases List.mem_append.mp hz with hz | hz
    · exact (hx hz).trans (List.prefix_append x _).isInfix
    · have hz := (List.mem_cons.mp hz).resolve_left (by simp)
      exact (hy hz).trans ⟨x ++ [o], [], by simp⟩
  induction h with
  | var s =>
    intro y hy
    cases List.mem_singleton.mp hy
    exact List.infix_rfl
  | integer s => simp
  | real s => simp
  | @paren ts x _ ih =>
    intro y hy
    have hy : Token.var y ∈ ts := by simpa using hy
    exact (ih y hy).trans ⟨['('], [')'], rfl⟩
  | terms _ _ _ ihl ihr => exact fun y => op (ihl y) (ihr y)
  | associative _ _ _ ihl ihr => exact fun y => op (ihl y) (ihr y)
  | ofTerm _ ih => exact ih
  | ofAssociative _ ih => exact ih
  | associatives _ _ _ ihl ihr => exact fun y => op (ihl y) (ihr y)
  | commutative _ _ _ ihl ihr => exact fun y => op (ihl y) (ihr y)

/-! ## The productions -/

theorem comma_through {f : Fields} {ts ts' : List Token} (h : comma ts = some ts') : Through (f, ts) (f, ts') := by
  unfold comma at h
  split at h
  · cases h
    exact through_of_same [.char ','] rfl (by simp)
  · cases h

theorem semicolon_through {f : Fields} {ts : List Token} {b : Fields × List Token} (h : semicolon f ts = some b) :
    Through (f, ts) b := by
  unfold semicolon at h
  split at h
  · cases h
    exact through_of_same [.char ';'] rfl (by simp)
  · cases h

theorem assignement_through {f : Fields} {ts : List Token} {b : Fields × List Token} (h : assignement f ts = some b) :
    Through (f, ts) b := by
  unfold assignement at h
  split at h
  · rename_i n us
    split at h
    · rename_i y rest hexpr
      cases h
      obtain ⟨us₁, rfl, hd, -⟩ := commExpr_iff.mp hexpr
      generalize "m->samples[".toList = s₁
      generalize "]=".toList = s₂
      generalize ";\n".toList = s₃
      rintro x (⟨code, hc, hx⟩ | hx)
      · have hc : f.reductionCode = some code := hc
        refine .inl ⟨_, rfl, hx.trans ⟨[], s₁ ++ decimal f.reductions.length ++ s₂ ++ y ++ s₃, ?_⟩⟩
        simp [hc]
      · have hx : Token.var x ∈ us₁ ++ rest := by simpa using hx
        rcases List.mem_append.mp hx with hx | hx
        · exact .inl ⟨_, rfl, (hd.isInfix x hx).trans ⟨_, s₃, rfl⟩⟩
        · exact .inr hx
    · cases h
  · cases h

theorem reduction_through {f : Fields} {ts : List Token} {b : Fields × List Token} (h : reduction f ts = some b) :
    Through (f, ts) b := by
  unfold reduction at h
  split at h
  · rename_i n g us
    cases h
    exact through_of_same [.integer n, .char '#', .name g] rfl (by simp)
  · split at h
    · rename_i f₁ ts₁ hl
      cases h
      have hlist : Through (f, ts) (f₁, ts₁) := sepBy_preorder (R := Through) (fun _ _ _ => .trans)
        (fun _ _ _ => assignement_through) (fun _ _ _ => comma_through) hl
      refine hlist.trans fun x hx => hx.imp_left ?_
      rintro ⟨code, hc, hx⟩
      exact ⟨wrapReduction code, congrArg (Option.map wrapReduction) hc, hx.trans ⟨_, _, rfl⟩⟩
    · cases h

/-- The events of a monitor are no variables. -/
theorem event_through {es : List Text} {ts : List Token} {b : List Text × List Token} (h : event es ts = some b)
    (x : Text) (hx : .var x ∈ ts) : .var x ∈ b.2 := by
  unfold event at h
  split at h
  · cases h; simpa using hx
  · cases h; simpa using hx
  · cases h; simpa using hx
  · cases h

theorem events_through {es : List Text} {ts : List Token} {b : List Text × List Token} {fuel : Nat}
    (h : sepBy event comma fuel es ts = some b) (x : Text) (hx : .var x ∈ ts) : .var x ∈ b.2 :=
  sepBy_preorder (R := fun a b => .var x ∈ a.2 → .var x ∈ b.2) (fun _ _ _ hab hbc ha => hbc (hab ha))
    (fun _ _ _ h => event_through h x) (fun s ts ts' h hx => by
      unfold comma at h
      split at h
      · cases h; simpa using hx
      · cases h) h hx

theorem field_through {locationParse : Text → Option Nat} {f : Fields} {ts : List Token} {b : Fields × List Token}
    (h : field locationParse f ts = some b) : Through (f, ts) b := by
  unfold field at h
  split at h
  · rename_i s us
    obtain ⟨d, -, he⟩ := Option.map_eq_some_iff.mp h
    cases he
    exact through_of_same [.objField, .name s, .char ';'] rfl (by simp)
  · rename_i s i us
    obtain ⟨d, -, he⟩ := Option.map_eq_some_iff.mp h
    cases he
    exact through_of_same [.objField, .name s, .char ':', .integer i, .char ';'] rfl (by simp)
  · rename_i us
    obtain ⟨⟨f₁, ts₁⟩, hr, hs⟩ := Option.bind_eq_some_iff.mp h
    exact (through_of_same [.reductionField] rfl (by simp)).trans
      ((reduction_through hr).trans (semicolon_through hs))
  · rename_i s us
    cases h
    exact through_of_same [.perfLibField, .name s, .char ';'] rfl (by simp)
  · rename_i i us
    cases h
    exact through_of_same [.displayField, .integer i, .char ';'] rfl (by simp)
  · rename_i i us
    cases h
    exact through_of_same [.outputField, .integer i, .char ';'] rfl (by simp)
  · rename_i p us
    cases h
    exact through_of_same [.outputField, .path p, .char ';'] rfl (by simp)
  · rename_i i us
    cases h
    exact through_of_same [.windowField, .integer i, .char ';'] rfl (by simp)
  · rename_i us
    obtain ⟨⟨es, ts₁⟩, he, hs⟩ := Option.bind_eq_some_iff.mp h
    have hevents : Through (f, .evsetField :: us) ({ f with events := es }, ts₁) := by
      intro x hx
      rcases hx with hx | hx
      · exact .inl hx
      · exact .inr (events_through he x (by simpa using hx))
    exact hevents.trans (semicolon_through hs)
  · cases h

theorem nextField_through {f : Fields} {ts ts' : List Token} (h : nextField ts = some ts') :
    Through (f, ts) (f, ts') := by
  unfold nextField at h
  split at h
  · cases h
  · cases h
    exact .refl _

/-- The same for blocks. -/
def ThroughBlocks (a b : List Block × List Token) : Prop :=
  ∀ x, (∃ c ∈ a.1, Compiled c.fields x) ∨ .var x ∈ a.2 → (∃ c ∈ b.1, Compiled c.fields x) ∨ .var x ∈ b.2

theorem monitor_through {locationParse : Text → Option Nat} {bs : List Block} {ts : List Token}
    {b : List Block × List Token} (h : monitor locationParse bs ts = some b) : ThroughBlocks (bs, ts) b := by
  unfold monitor at h
  split at h
  · rename_i id us
    split at h
    · rename_i f rest hf
      cases h
      have hfields : Through (.reset, us) (f, .char '}' :: rest) := sepBy_preorder (R := Through) (fun _ _ _ => .trans)
        (fun _ _ _ => field_through) (fun _ _ _ => nextField_through) hf
      rintro x (⟨c, hc, hx⟩ | hx)
      · exact .inl ⟨c, List.mem_append_left _ hc, hx⟩
      · rcases hfields x (.inr (by simpa using hx)) with ⟨code, hcode, hx⟩ | hx
        · exact .inl ⟨_, List.mem_append_right _ (List.mem_singleton_self _), code, hcode, hx⟩
        · exact .inr (by simpa using hx)
    · cases h
  · cases h

/-- **Every variable of a configuration is in the code of a reduction.** -/
theorem variables_compiled {locationParse : Text → Option Nat} {ts : List Token} {bs : List Block}
    (h : config locationParse ts = some bs) {x : Text} (hx : .var x ∈ ts) : ∃ b ∈ bs, Compiled b.fields x := by
  unfold config at h
  split at h
  · rename_i bs' hm
    cases h
    have hthrough : ThroughBlocks ([], ts) (bs, []) := sepBy_preorder (fun _ _ _ hab hbc x hx => hbc x (hab x hx))
      (fun _ _ _ => monitor_through) (fun s us us' hn => by
        unfold nextMonitor at hn
        split_ifs at hn
        cases hn
        exact fun x hx => hx) hm
    exact (hthrough x (.inr hx)).resolve_right List.not_mem_nil
  · cases h

/-! ## What C makes of them -/

/-- C reads the text, before anything that stands behind an operand, as the element `k` of the row. -/
def ReadsElement (x : Text) (k : Int) : Prop :=
  ∃ toks, (∀ c T, ends c = true → clex (x ++ c :: T) = toks ++ clex (c :: T)) ∧
    ∀ (V : Type) (r : Reading V), csymbols r toks = some [.operand (r.event k)]

theorem readsElement_var {k : Text} {i : Int} (hk : k ∈ integer.lang) (hlen : k.length ≤ 7) (hi : cInteger k = some i) :
    ReadsElement (varToReference ('$' :: k)) i := by
  refine ⟨ctokens (.var [], '$' :: k), fun c T hc => ?_, fun V r => ?_⟩
  · have hlexes := (compiles_var (t := []) hk hlen).lexes c T hc
    rwa [List.flatMap_singleton] at hlexes
  · exact csymbols_index [] hk hlen hi

/-- A lexeme of a variable. -/
theorem lexeme_var {s t k : Text} (h : (.var t, '$' :: k) ∈ lexemes s) :
    k ∈ integer.lang ∧ t = varToReference ('$' :: k) := by
  obtain ⟨hu, rfl⟩ : '$' :: k ∈ Config.var.lang ∧ t = varToReference ('$' :: k) := origin_of_mem h
  obtain ⟨a, ha, k', hk, he⟩ := mem_seq.mp hu
  cases mem_chr.mp ha
  cases he
  exact ⟨hk, rfl⟩

/-! ## The monitors of a block -/

section Monitors
variable {T V M : Type} [DecidableEq T] [Double V]

/-- A monitor that `monitor_create` gets for a block, after any reads: the block names events and a performance plugin,
and the number of events of the monitor is what the plugin added. -/
inductive CreatedFrom (b : Block) : Hmonitor T V M → Prop
  | new {self : T} {now : Int} {s : Spec V M} {m : Hmonitor T V M} : b.fields.events ≠ [] →
      b.fields.perfPluginName ≠ Option.none → s.window = b.fields.window → s.nSamples = b.fields.reductions.length →
      Hmon.newHmonitor self now s = some m → CreatedFrom b m
  | read {self : T} {a : Answer V} {m : Hmonitor T V M} : CreatedFrom b m → CreatedFrom b (hmonitorRead self a m).mon

omit [DecidableEq T] in
theorem windowed_new {self : T} {now : Int} {s : Spec V M} {m : Hmonitor T V M}
    (h : Hmon.newHmonitor self now s = some m) :
    Allocated m ∧ m.last < m.window := by
  refine ⟨(newHmonitor_allocated h).1, ?_⟩
  unfold Hmon.newHmonitor at h
  by_cases hw : s.window = 0
  · rw [if_pos hw] at h
    cases h
  · rw [if_neg hw, Option.some.injEq] at h
    subst h
    exact Nat.sub_lt (Nat.pos_of_ne_zero hw) Nat.one_pos

theorem windowed_read {self : T} {a : Answer V} {m : Hmonitor T V M} (h : Allocated m ∧ m.last < m.window) :
    Allocated (hmonitorRead self a m).mon ∧ (hmonitorRead self a m).mon.last < (hmonitorRead self a m).mon.window := by
  obtain ⟨ha, hl⟩ := h
  unfold hmonitorRead
  simp only
  split_ifs
  · exact ⟨by simpa [Allocated, nextRow, hmonitorSetTimestamp] using ha, Nat.mod_lt _ (Nat.zero_lt_of_lt hl)⟩
  · exact ⟨by simpa [Allocated, nextRow, hmonitorSetTimestamp] using ha, Nat.mod_lt _ (Nat.zero_lt_of_lt hl)⟩
  · exact ⟨ha, hl⟩

theorem CreatedFrom.windowed {b : Block} {m : Hmonitor T V M} (h : CreatedFrom b m)
    (hf : m.window * (m.nEvents + 1) < 2 ^ 32) : Windowed m := by
  have hshape : Allocated m ∧ m.last < m.window := by
    clear hf
    induction h with
    | new _ _ _ _ h => exact windowed_new h
    | read _ ih => exact windowed_read ih
  exact ⟨hshape.1, hf, hshape.2⟩

/-- What becomes of the variable with the text `t` and the number `i` in a block: it is compiled as written, and in each
monitor of the block it is one of the events of the row `last`, or the timestamp of the row, by its number alone. -/
structure Unchecked (b : Block) (t : Text) (i : Int) : Prop where
  compiled : Compiled b.fields t
  reads : ReadsElement t i
  event : ∀ {T V M : Type} [DecidableEq T] [Double V] (m : Hmonitor T V M), CreatedFrom b m →
    m.window * (m.nEvents + 1) < 2 ^ 32 → ((∃ e, m.cell i = .event m.last e) ↔ 0 ≤ i ∧ i < m.nEvents)
  timestamp : ∀ {T V M : Type} [DecidableEq T] [Double V] (m : Hmonitor T V M), CreatedFrom b m →
    m.window * (m.nEvents + 1) < 2 ^ 32 → (m.cell i = .timestamp m.last ↔ i = m.nEvents)

end Monitors

/-- A variable of the text with the number `i`, one that the buffer of the scanner does not cut: `t` is its text in the
code. -/
def Variable (text t : Text) (i : Int) : Prop :=
  ∃ k, (.var t, '$' :: k) ∈ lexemes text ∧ k.length ≤ 7 ∧ cInteger k = some i

/-- **The text of an accepted configuration splits into those of its blocks, and nothing bounds the variables of a
block**: each is compiled as it is written, and refers to an event of the row exactly when its number is below the
number of events that the monitor has. -/
theorem variables_unchecked {locationParse : Text → Option Nat} {s : Text} {bs : List Block}
    (h : config locationParse (scan s) = some bs) : ∃ texts : List Text, s = texts.flatten ∧
      List.Forall₂ (fun text b => config locationParse (scan text) = some [b] ∧
        ∀ t i, Variable text t i → Unchecked b t i) texts bs := by
  obtain ⟨parts, hparts, hblocks⟩ := config_parts h
  cases parts with
  | nil =>
    rw [hparts] at h
    cases h
  | cons part parts =>
    obtain ⟨texts, rfl, htexts⟩ := Lexer.scan_parts hparts
    refine ⟨texts, rfl, forall₂_trans (fun text part b htext hblock => ?_) htexts hblocks⟩
    rw [← htext] at hblock
    refine ⟨hblock, fun t i hv => ?_⟩
    obtain ⟨k, hmem, hlen, hi⟩ := hv
    obtain ⟨hint, ht⟩ := lexeme_var hmem
    have htoken : Token.var t ∈ scan text := lexemes_tokens text ▸ List.mem_map_of_mem hmem
    obtain ⟨c, hc, hcompiled⟩ := variables_compiled hblock htoken
    cases List.mem_singleton.mp hc
    exact ⟨hcompiled, ht ▸ readsElement_var hint hlen hi, fun m hm hf => (hm.windowed hf).event_iff i,
      fun m hm hf => (hm.windowed hf).timestamp_iff i⟩

/-! ## A block with an event and the variables 0 and 5 -/

/-- A block of the fake plugin, which adds one event. -/
def farText (k : Char) : Text :=
  "m\x7bPERF_LIB:=fake;EVSET:=FAKE;REDUCTION:=a=$".toList ++ k :: ";\x7d".toList

theorem near_variable : ∃ bs, config (fun _ => some 0) (scan (farText '0')) = some bs ∧ ∃ texts : List Text,
    farText '0' = texts.flatten ∧ List.Forall₂ (fun text b => config (fun _ => some 0) (scan text) = some [b] ∧
      ∀ t i, Variable text t i → Unchecked b t i) texts bs := by
  have hok : (config (fun _ => some 0) (scan (farText '0'))).isSome = true := by decide +kernel
  obtain ⟨bs, h⟩ := Option.isSome_iff_exists.mp hok
  exact ⟨bs, h, variables_unchecked h⟩

def farMonitor : Hmonitor ℕ ℚ ℕ :=
  (newHmonitor 0 0 { fakeSpec [] Topo.machine fun _ => 0 with nSamples := 1 }).get rfl

/-- The block with `$5` is accepted, and its monitor has one event. -/
theorem variable_past_events : ¬ ∀ (s : Text) (b : Block) (t : Text) (i : Int) (m : Hmonitor ℕ ℚ ℕ),
    config (fun _ => some 0) (scan s) = some [b] → Variable s t i → CreatedFrom b m →
      ∃ e, m.cell i = .event m.last e := by
  intro h
  have hok : (config (fun _ => some 0) (scan (farText '5'))).any (fun bs => bs.map (fun b => (b.fields.events,
      b.fields.perfPluginName, b.fields.window, b.fields.reductions.length)) ==
        [(["FAKE".toList], some "fake".toList, 1, 1)]) = true := by decide +kernel
  obtain ⟨bs, hbs, hfields⟩ := (Option.any_eq_true _ _).mp hok
  obtain ⟨b, rfl, hb⟩ := List.map_eq_singleton_iff.mp (eq_of_beq hfields)
  obtain ⟨hevents, hb⟩ := Prod.mk.inj hb
  obtain ⟨hplugin, hb⟩ := Prod.mk.inj hb
  obtain ⟨hwindow, hsamples⟩ := Prod.mk.inj hb
  have hvar : Variable (farText '5') "events[5]\n".toList 5 := ⟨['5'], by decide +kernel, by decide, by decide⟩
  have hm : CreatedFrom b farMonitor := .new (s := { fakeSpec [] Topo.machine fun _ => 0 with nSamples := 1 })
    (by rw [hevents]; decide) (by rw [hplugin]; decide) hwindow.symm hsamples.symm (Option.some_get _).symm
  obtain ⟨e, he⟩ := h _ b _ _ farMonitor hbs hvar hm
  have hcell : farMonitor.cell 5 = .outside := by decide +kernel
  rw [hcell] at he
  cases he

end Hmon.Config
