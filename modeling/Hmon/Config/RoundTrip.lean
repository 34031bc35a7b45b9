import Hmon.Config.Source
import Hmon.Config.Ambiguity

/-!
# Written configurations are read back

* `Expr.text`, `assignments`, `Field.apply`, `Monitor.block`, `Configuration.blocks` : what a configuration says, without
  a scanner or a parser;
* `Expr.derives` : an expression is derivable, with its text; `sepBy_items` : a list of items is read item by item;
* `field_lexemes`, `monitor_lexemes` : so are the fields and the monitors;
* `config_roundtrip` : **every layout of a configuration is parsed to its blocks**;
* `config_reformat` : **a text and any other layout of its lexemes have the same blocks**.
-/

namespace Hmon.Config.Source
open Lib

/-! ## What a configuration says -/

def Expr.text : Expr → Text
  | var k => varToReference ('$' :: k.1)
  | int n => n.1
  | float x _ => x.1
  | paren e => '(' :: (e.text ++ [')'])
  | binary a o b => a.text ++ o.char :: b.text

/-- The code of an assignment to the `k`-th sample. -/
def Assignment.code (k : Nat) (a : Assignment) : Text :=
  "m->samples[".toList ++ decimal k ++ "]=".toList ++ a.expr.text ++ ";\n".toList

/-- The code of assignments to the samples from the `k`-th on. -/
def assignments : Nat → List Assignment → Text
  | _, [] => []
  | k, a :: as => a.code k ++ assignments (k + 1) as

/-- What a field sets; the type of an object may be unknown. -/
def Field.apply (locationParse : Text → Option Nat) (f : Fields) : Field → Option Fields
  | obj t => (locationParse t.1).map fun d => { f with locationDepth := d }
  | objAt t i => (locationParse t.1).map fun d => { f with locationDepth := d, locationIndex := atoi i.1 }
  | perfLib p => some { f with perfPluginName := some p.1 }
  | display i => some { f with display := atoi i.1 }
  | output i => some { f with output := if atoi i.1 ≤ 0 then .none else if atoi i.1 = 2 then .stderr else .stdout }
  | outputFile p => some { f with output := .file p.1 }
  | window i => some { f with window := ((atoi i.1) % 4294967296).toNat }
  | evset e es => some { f with events := f.events ++ (e :: es).map Event.text }
  | reduceWith n g => some { f with
      reductionPluginName := some g.1
      reductions := f.reductions ++
        List.replicate (atoi n.1).toNat (('V' :: decimal (atoi n.1).toNat).take 15) }
  | assign a as => some { f with
      reductionCode := some (wrapReduction (f.reductionCode.getD [] ++ assignments f.reductions.length (a :: as)))
      reductions := f.reductions ++ (a :: as).map fun a => a.sample.1 }

/-- The block of a monitor: a reduction by code is called after the monitor. -/
def Monitor.block (locationParse : Text → Option Nat) (m : Monitor) : Option Block :=
  ((m.field :: m.fields).foldlM (Field.apply locationParse) .reset).map fun f => ⟨m.id.1, { f with
    reductionPluginName :=
      if f.reductionCode.isSome then f.reductionPluginName.or (some m.id.1) else f.reductionPluginName }⟩

def Configuration.blocks (locationParse : Text → Option Nat) (c : Configuration) : Option (List Block) :=
  (c.monitor :: c.monitors).mapM (Monitor.block locationParse)

/-! ## Expressions -/

/-- The tokens of lexemes. -/
abbrev tokens (ls : List Lexeme) : List Token := ls.map Prod.fst

theorem termRun_append (t t' : List Token) (o : Char) (rest rest' : List (Char × List Token)) :
    termRun t rest ++ .char o :: termRun t' rest' = termRun t (rest ++ (o, t') :: rest') := by
  simp [termRun]

/-- An expression is a sequence of terms with operators between them. -/
theorem Expr.run (e : Expr) : ∃ t rest, tokens e.lexemes = termRun t rest ∧ IsTerm t ∧
    ∀ p ∈ rest, operator p.1 = true ∧ IsTerm p.2 := by
  induction e with
  | var k => exact ⟨_, [], rfl, ⟨_, .var _⟩, List.forall_mem_nil _⟩
  | int n => exact ⟨_, [], rfl, ⟨_, .integer _⟩, List.forall_mem_nil _⟩
  | float x h => exact ⟨_, [], rfl, ⟨_, .real _⟩, List.forall_mem_nil _⟩
  | paren e ih =>
    obtain ⟨t, rest, he, ⟨x, hx⟩, hrest⟩ := ih
    obtain ⟨y, hy⟩ := exists_computes hrest ⟨x, hx.ofTerm⟩
    exact ⟨tokens (paren e).lexemes, [], by simp [termRun], ⟨_, by
      simp only [Expr.lexemes, List.map_cons, List.map_append, he]
      exact hy.paren⟩, List.forall_mem_nil _⟩
  | binary a o b iha ihb =>
    obtain ⟨t, rest, ha, ht, hrest⟩ := iha
    obtain ⟨t', rest', hb, ht', hrest'⟩ := ihb
    have ho : operator o.char = true := by cases o <;> rfl
    refine ⟨t, rest ++ (o.char, t') :: rest', ?_, ht, List.forall_mem_append.mpr ⟨hrest,
      List.forall_mem_cons.mpr ⟨⟨ho, ht'⟩, hrest'⟩⟩⟩
    rw [← termRun_append, ← ha, ← hb]
    simp [Expr.lexemes, character]

theorem Expr.strings (e : Expr) : (tokens e.lexemes).flatMap Token.string = e.text := by
  induction e with
  | var k => exact List.append_nil _
  | int n => exact List.append_nil _
  | float x h => exact List.append_nil _
  | paren e ih =>
    rw [text, ← ih]
    simp [Expr.lexemes, character, Token.string]
  | binary a o b iha ihb =>
    rw [text, ← iha, ← ihb]
    simp [Expr.lexemes, character, Token.string]

theorem Expr.derives (e : Expr) : Derives .commutativeExpr (tokens e.lexemes) e.text := by
  obtain ⟨t, rest, he, ⟨x, hx⟩, hrest⟩ := e.run
  obtain ⟨y, hy⟩ := exists_computes hrest ⟨x, hx.ofTerm⟩
  obtain ⟨z, hz⟩ := hy.exists_derives
  rw [← he] at hz
  rwa [← e.strings, ← hz.text]

/-! ## Lists of items -/

/-- Behind the first of them, items with `sep` before each. -/
def items {A T : Type} (sep : List T) (f : A → List T) (as : List A) : List T := as.flatMap fun a => sep ++ f a

theorem length_le_items {A T : Type} (sep : List T) {f : A → List T} (hf : ∀ a, f a ≠ []) (as : List A) :
    as.length ≤ (items sep f as).length := by
  induction as with
  | nil => rfl
  | cons a as ih =>
    have := List.length_pos_of_ne_nil (hf a)
    rw [items, List.flatMap_cons, List.length_append, List.length_append, List.length_cons]
    rw [items] at ih
    omega

/-- A list of items is read item by item, up to the rest behind it. -/
theorem sepBy_items {S T A : Type} {item : S → List T → Option (S × List T)} {next : List T → Option (List T)}
    {f : A → List T} {rest : List T} (sep : List T) (apply : S → A → Option S) (Ends : List T → Prop)
    (hitem : ∀ s a w, Ends w → item s (f a ++ w) = (apply s a).map fun s => (s, w))
    (hends : ∀ as, Ends (items sep f as ++ rest)) (hnext : ∀ a w, next (sep ++ (f a ++ w)) = some (f a ++ w))
    (hrest : next rest = none) {fuel : Nat} (s : S) (a : A) (as : List A) (hfuel : as.length < fuel) :
    sepBy item next fuel s (f a ++ (items sep f as ++ rest)) =
      ((a :: as).foldlM apply s).map fun s => (s, rest) := by
  induction as generalizing fuel s a with
  | nil =>
    obtain ⟨fuel, rfl⟩ := Nat.exists_eq_succ_of_ne_zero (Nat.ne_zero_of_lt hfuel)
    have hlast := hitem s a rest (hends [])
    simp only [items, List.flatMap_nil, List.nil_append, sepBy, hlast, List.foldlM_cons, List.foldlM_nil]
    cases apply s a with
    | none => rfl
    | some s' => simp [hrest]
  | cons b as ih =>
    obtain ⟨fuel, rfl⟩ := Nat.exists_eq_succ_of_ne_zero (Nat.ne_zero_of_lt hfuel)
    have hone := hitem s a (items sep f (b :: as) ++ rest) (hends (b :: as))
    have hbehind : items sep f (b :: as) ++ rest = sep ++ (f b ++ (items sep f as ++ rest)) := by
      simp [items]
    rw [List.foldlM_cons]
    simp only [sepBy, hone]
    cases apply s a with
    | none => rfl
    | some s' =>
      simp only [Option.map_some, hbehind, hnext]
      exact ih s' b (Nat.lt_of_succ_lt_succ hfuel)

/-- The items that the parser separates by commas. -/
theorem tokens_commaItems {A : Type} (f : A → List Lexeme) (as : List A) :
    tokens (commaItems f as) = items [.char ','] (fun a => tokens (f a)) as := by
  simp [tokens, commaItems, items, List.map_flatMap, character]

/-! ## Fields -/

/-- Behind an assignment stands a comma or a semicolon. -/
def EndsAssignment (w : List Token) : Prop := ∃ c, (c = ',' ∨ c = ';') ∧ w.head? = some (.char c)

/-- One assignment. -/
def Assignment.add (f : Fields) (a : Assignment) : Fields := { f with
  reductionCode := some (f.reductionCode.getD [] ++ a.code f.reductions.length)
  reductions := f.reductions ++ [a.sample.1] }

theorem assignement_eq {ts rest : List Token} {x : Text} (h : commExpr [] .empty none ts = some (x, rest)) (f : Fields)
    (n : Text) : assignement f (.name n :: .char '=' :: ts) = some ({ f with
      reductionCode := some (f.reductionCode.getD [] ++ "m->samples[".toList ++ decimal f.reductions.length ++
        "]=".toList ++ x ++ ";\n".toList)
      reductions := f.reductions ++ [n] }, rest) := by
  simp only [assignement, h]

theorem assignement_lexemes (f : Fields) (a : Assignment) {w : List Token} (hw : EndsAssignment w) :
    assignement f (tokens a.lexemes ++ w) = some (a.add f, w) := by
  obtain ⟨c, hc, hhead⟩ := hw
  have hexpr : commExpr [] .empty none (tokens a.expr.lexemes ++ w) = some (a.expr.text, w) :=
    commExpr_iff.mpr ⟨_, rfl, a.expr.derives, c, hc, hhead⟩
  refine (assignement_eq hexpr f a.sample.1).trans ?_
  unfold Assignment.add Assignment.code
  simp only [List.append_assoc]

/-- Several assignments. -/
theorem foldl_assignments (f : Fields) (a : Assignment) (as : List Assignment) :
    (a :: as).foldl Assignment.add f = { f with
      reductionCode := some (f.reductionCode.getD [] ++ assignments f.reductions.length (a :: as))
      reductions := f.reductions ++ (a :: as).map fun a => a.sample.1 } := by
  induction as generalizing f a with
  | nil =>
    simp only [List.foldl_cons, List.foldl_nil, Assignment.add, assignments, List.append_nil, List.map_cons, List.map_nil]
  | cons b as ih =>
    rw [List.foldl_cons, ih]
    simp only [Assignment.add, assignments, Option.getD_some, List.length_append, List.length_singleton, List.map_cons,
      List.append_assoc, List.singleton_append]

theorem assignments_foldlM (f : Fields) (as : List Assignment) :
    as.foldlM (fun f a => some (Assignment.add f a)) f = some (as.foldl Assignment.add f) :=
  List.foldlM_pure ..

/-- The assignments of a reduction. -/
theorem assignementList_lexemes (f : Fields) (a : Assignment) (as : List Assignment) (w : List Token) :
    assignementList f (tokens a.lexemes ++ (tokens (commaItems Assignment.lexemes as) ++ .char ';' :: w)) =
      some ((a :: as).foldl Assignment.add f, .char ';' :: w) := by
  rw [tokens_commaItems]
  unfold assignementList
  have hends : ∀ as, EndsAssignment (items [.char ','] (fun a => tokens (Assignment.lexemes a)) as ++ .char ';' :: w) := by
    intro as
    cases as with
    | nil => exact ⟨';', .inr rfl, rfl⟩
    | cons b as => exact ⟨',', .inl rfl, rfl⟩
  have hlen := length_le_items [Token.char ','] (f := fun a => tokens (Assignment.lexemes a))
    (fun a => List.cons_ne_nil _ _) as
  rw [sepBy_items [.char ','] (fun f a => some (Assignment.add f a)) EndsAssignment
    (fun f a w hw => assignement_lexemes f a hw) hends
    (fun _ _ => rfl) rfl f a as (by simp only [List.length_append]; omega), assignments_foldlM]
  rfl

theorem reduction_assign (f : Fields) (a : Assignment) (as : List Assignment) (w : List Token) :
    reduction f (tokens a.lexemes ++ (tokens (commaItems Assignment.lexemes as) ++ .char ';' :: w)) =
      some ({ (a :: as).foldl Assignment.add f with
        reductionCode := ((a :: as).foldl Assignment.add f).reductionCode.map wrapReduction }, .char ';' :: w) := by
  have hlist := assignementList_lexemes f a as w
  unfold reduction
  split
  · rename_i he
    cases he
  · rw [hlist]

theorem event_lexeme (es : List Text) (e : Event) (w : List Token) :
    event es (tokens [e.lexeme] ++ w) = some (es ++ [e.text], w) := by
  cases e <;> rfl

theorem events_lexemes (es₀ : List Text) (e : Event) (es : List Event) (w : List Token) (fuel : Nat)
    (hfuel : es.length < fuel) :
    sepBy event comma fuel es₀ (e.lexeme.1 :: (tokens (commaItems (fun e => [e.lexeme]) es) ++ .char ';' :: w)) =
      some (es₀ ++ (e :: es).map Event.text, .char ';' :: w) := by
  rw [tokens_commaItems]
  have hlist := sepBy_items [.char ','] (fun es e => some (es ++ [Event.text e])) (fun _ => True)
    (fun es e w _ => event_lexeme es e w) (fun _ => trivial) (fun _ _ => rfl) (rfl : comma (.char ';' :: w) = none)
    es₀ e es hfuel
  refine hlist.trans ?_
  have hfold : ∀ (es : List Event) (s : List Text),
      es.foldlM (fun es e => some (es ++ [Event.text e])) s = some (s ++ es.map Event.text) := by
    intro es
    induction es with
    | nil => intro s; simp
    | cons e es ih =>
      intro s
      rw [List.foldlM_cons]
      exact (ih _).trans (by simp)
  rw [hfold]
  rfl

/-- A field is read with what it sets. -/
theorem field_lexemes (locationParse : Text → Option Nat) (f : Fields) (d : Field) (w : List Token) :
    field locationParse f (tokens d.lexemes ++ w) = (d.apply locationParse f).map fun f => (f, w) := by
  cases d with
  | obj t => simp only [Field.apply, Option.map_map]; rfl
  | objAt t i => simp only [Field.apply, Option.map_map]; rfl
  | perfLib p => rfl
  | display i => rfl
  | output i => rfl
  | outputFile p => rfl
  | window i => rfl
  | evset e es =>
    have hlen := length_le_items [Token.char ','] (f := fun e => tokens [Event.lexeme e])
      (fun e => List.cons_ne_nil _ _) es
    have hlist := events_lexemes f.events e es w
      ((e.lexeme.1 :: (tokens (commaItems (fun e => [e.lexeme]) es) ++ .char ';' :: w)).length + 1) (by
        rw [tokens_commaItems]
        simp only [List.length_cons, List.length_append]
        omega)
    have htokens : tokens (Field.evset e es).lexemes ++ w =
        .evsetField :: e.lexeme.1 :: (tokens (commaItems (fun e => [e.lexeme]) es) ++ .char ';' :: w) := by
      simp [Field.lexemes, tokens, character]
    rw [htokens]
    show (sepBy event comma _ f.events _).bind _ = _
    rw [hlist]
    rfl
  | reduceWith n g => rfl
  | assign a as =>
    have htokens : tokens (Field.assign a as).lexemes ++ w =
        .reductionField :: (tokens a.lexemes ++ (tokens (commaItems Assignment.lexemes as) ++ .char ';' :: w)) := by
      simp [Field.lexemes, tokens, character]
    rw [htokens]
    show (reduction f _).bind _ = _
    rw [reduction_assign, foldl_assignments]
    rfl

/-! ## Monitors -/

section Monitors
variable (locationParse : Text → Option Nat)

theorem tokens_flatMap {A : Type} (f : A → List Lexeme) (as : List A) :
    tokens (as.flatMap f) = items [] (fun a => tokens (f a)) as := by
  simp [tokens, items, List.map_flatMap]

theorem fieldList_lexemes (d : Field) (ds : List Field) (w : List Token) :
    fieldList locationParse (tokens d.lexemes ++ (tokens (ds.flatMap Field.lexemes) ++ .char '}' :: w)) =
      ((d :: ds).foldlM (Field.apply locationParse) .reset).map fun f => (f, .char '}' :: w) := by
  rw [tokens_flatMap]
  unfold fieldList
  have hne : ∀ d : Field, tokens d.lexemes ≠ [] := fun d => by cases d <;> exact List.cons_ne_nil _ _
  have hlen := length_le_items [] hne ds
  exact sepBy_items [] (Field.apply locationParse) (fun _ => True) (fun f d w _ => field_lexemes locationParse f d w)
    (fun _ => trivial) (fun d w => by cases d <;> rfl) rfl .reset d ds (by simp only [List.length_append]; omega)

/-- A monitor is read as its block. -/
theorem monitor_lexemes (bs : List Block) (m : Monitor) (w : List Token) :
    monitor locationParse bs (tokens m.lexemes ++ w) = (m.block locationParse).map fun b => (bs ++ [b], w) := by
  have htokens : tokens m.lexemes ++ w = .name m.id.1 :: .char '{' ::
      (tokens m.field.lexemes ++ (tokens (m.fields.flatMap Field.lexemes) ++ .char '}' :: w)) := by
    simp [Monitor.lexemes, tokens, character, nameOf]
  have hlist := fieldList_lexemes locationParse m.field m.fields w
  rw [htokens]
  simp only [monitor, hlist, Monitor.block]
  cases (m.field :: m.fields).foldlM (Field.apply locationParse) .reset <;> rfl

theorem blocks_foldlM (bs : List Block) (ms : List Monitor) :
    ms.foldlM (fun bs m => (m.block locationParse).map fun b => bs ++ [b]) bs =
      (ms.mapM (Monitor.block locationParse)).map fun new => bs ++ new := by
  induction ms generalizing bs with
  | nil => simp
  | cons m ms ih =>
    rw [List.foldlM_cons, List.mapM_cons]
    cases m.block locationParse with
    | none => rfl
    | some b =>
      refine (ih (bs ++ [b])).trans ?_
      cases ms.mapM (Monitor.block locationParse) <;> simp

/-- The parser reads the tokens of a configuration as its blocks. -/
theorem config_tokens (c : Configuration) : config locationParse (tokens c.lexemes) = c.blocks locationParse := by
  have htokens : tokens c.lexemes = tokens c.monitor.lexemes ++
      (items [] (fun m => tokens (Monitor.lexemes m)) c.monitors ++ []) := by
    rw [List.append_nil, ← tokens_flatMap]
    simp [Configuration.lexemes, tokens]
  have hne : ∀ m : Monitor, tokens m.lexemes ≠ [] := fun m => List.cons_ne_nil _ _
  have hlen := length_le_items [] hne c.monitors
  have hfuel : c.monitors.length < (tokens c.lexemes).length + 1 := by
    rw [htokens]
    simp only [List.length_append]
    omega
  have hitem : ∀ (bs : List Block) (m : Monitor) w, True → monitor locationParse bs (tokens m.lexemes ++ w) =
      ((m.block locationParse).map fun b => bs ++ [b]).map fun bs => (bs, w) := by
    intro bs m w _
    rw [monitor_lexemes, Option.map_map]
    rfl
  have hlist := sepBy_items [] (fun bs m => (Monitor.block locationParse m).map fun b => bs ++ [b]) (fun _ => True)
    hitem (fun _ => trivial) (fun m w => if_neg (List.append_ne_nil_of_left_ne_nil (hne m) w))
    (show nextMonitor [] = none from rfl) [] c.monitor c.monitors hfuel
  unfold config
  rw [← htokens, blocks_foldlM] at hlist
  rw [hlist]
  unfold Configuration.blocks
  cases (c.monitor :: c.monitors).mapM (Monitor.block locationParse) <;> rfl

/-- **Every layout of a configuration is parsed to its blocks**: the names, numbers, events, expressions and fields that
were written, in their order; it is rejected exactly if it has an object of an unknown type. -/
theorem config_roundtrip (c : Configuration) {s : Text} (h : IsLaid c.lexemes s) :
    config locationParse (scan s) = c.blocks locationParse := by
  rw [scan_text c.legal h]
  exact config_tokens locationParse c

end Monitors

/-- `m { OBJ:=PU; EVSET:=FAKE; REDUCTION:=a=($0+1.5)*2; }` -/
def exampleConfiguration : Configuration where
  monitor :=
    { id := ⟨"m".toList, by decide⟩
      field := .obj ⟨"PU".toList, by decide⟩
      fields := [.evset (.named ⟨"FAKE".toList, by decide⟩) [], .assign
        { sample := ⟨"a".toList, by decide⟩
          expr := .binary (.paren (.binary (.var ⟨"0".toList, by decide⟩) .add (.float ⟨"1.5".toList, by decide⟩
            (by decide)))) .mul (.int ⟨"2".toList, by decide⟩) } []] }
  monitors := []

/-- The lexemes of a list with the gaps of another before them. -/
def withGaps (gaps : List String) (ls : List Lexeme) : List (Text × Text) := (gaps.map String.toList).zip (ls.map Prod.snd)

/-- A comment, and then the configuration on one line. -/
theorem config_roundtrip_example : config (fun _ => some 3)
    (scan "% samples\nm \x7b OBJ:=PU; EVSET:=FAKE; REDUCTION:=a=($0 + 1.5)*2; \x7d".toList) =
      exampleConfiguration.blocks fun _ => some 3 :=
  config_roundtrip _ exampleConfiguration ⟨withGaps ["% samples\n", " ", " ", "", "", " ", "", "", " ", "", "", "", "", " ",
    " ", "", "", "", "", " "] exampleConfiguration.lexemes, [], by decide, by decide +kernel, by decide⟩

/-! ## Reformatting -/

/-- **A text and any layout of its lexemes have the same blocks.** -/
theorem config_reformat (locationParse : Text → Option Nat) {s s' : Text} (h : IsLaid (lexemes s) s') :
    config locationParse (scan s') = config locationParse (scan s) := by
  obtain ⟨ps, last, hps, hlaid, rfl⟩ := h
  exact congrArg (config locationParse) (Lexer.scan_reformat (fun _ => layout_silent) hlaid hps)

/-- Lexemes that stand together are the same as with blanks, lines and a comment between them. -/
theorem config_reformat_example : config (fun _ => some 3) (scan "m % the only one\n\x7b\tOBJ:= PU ; \x7d\n".toList) =
    config (fun _ => some 3) (scan "m\x7bOBJ:=PU;\x7d".toList) :=
  config_reformat (fun _ => some 3) ⟨withGaps ["", " % the only one\n", "\t", " ", " ", " "]
    (lexemes "m\x7bOBJ:=PU;\x7d".toList), "\n".toList, by decide, by decide +kernel, by decide⟩

end Hmon.Config.Source
