import Hmon.Config.Expr

/-!
# The parser of configurations (`parser.y`)

* `Fields` : the global variables that the fields of a monitor set; `Fields.reset` : their defaults;
* `assignement`, `reduction`, `field`, `monitor` : the productions with their actions, on the remaining tokens;
* `sepBy` : a nonempty list, with what one item and the rest do (`sepBy_step`); its fuel does not matter once it is the
  number of tokens (`sepBy_fuel`), and items that keep two states related do so along a list (`sepBy_rel`);
* `Block` : a parsed monitor; `functionSource` : the file that `monitor_create` writes for its reduction;
* `config` : the monitors of a token list.
-/

namespace Hmon.Config

/-! ## Lists -/

section SepBy
variable {S T : Type}

/-- A nonempty list of items; `next` reads the separator, or nothing at the end of the list. -/
def sepBy (item : S → List T → Option (S × List T)) (next : List T → Option (List T)) :
    Nat → S → List T → Option (S × List T)
  | 0, _, _ => none
  | fuel + 1, s, ts =>
    match item s ts with
    | none => none
    | some (s, ts) =>
      match next ts with
      | some ts => sepBy item next fuel s ts
      | none => some (s, ts)

variable {item : S → List T → Option (S × List T)} {next : List T → Option (List T)}

/-- More fuel than tokens changes nothing. -/
theorem sepBy_fuel (hitem : ∀ s ts s' ts', item s ts = some (s', ts') → ts'.length < ts.length)
    (hnext : ∀ ts ts', next ts = some ts' → ts'.length ≤ ts.length) {fuel fuel' : Nat} {s : S} {ts : List T}
    (h : ts.length < fuel) (h' : ts.length < fuel') : sepBy item next fuel s ts = sepBy item next fuel' s ts := by
  induction fuel generalizing fuel' s ts with
  | zero => exact absurd h (Nat.not_lt_zero _)
  | succ fuel ih =>
    obtain ⟨fuel', rfl⟩ : ∃ k, fuel' = k + 1 := ⟨fuel' - 1, by omega⟩
    simp only [sepBy]
    cases hi : item s ts with
    | none => rfl
    | some o =>
      obtain ⟨s', ts'⟩ := o
      have hlt := hitem s ts s' ts' hi
      cases hn : next ts' with
      | none => simp only [hn]
      | some ts'' =>
        have hle := hnext ts' ts'' hn
        simp only [hn]
        exact ih (by omega) (by omega)

/-- An item was read, and behind it nothing or a separator and more items. -/
theorem sepBy_step {fuel : Nat} {s : S} {ts : List T} {b : S × List T} (h : sepBy item next (fuel + 1) s ts = some b) :
    ∃ s₁ ts₁, item s ts = some (s₁, ts₁) ∧
      (next ts₁ = none ∧ b = (s₁, ts₁) ∨ ∃ ts₂, next ts₁ = some ts₂ ∧ sepBy item next fuel s₁ ts₂ = some b) := by
  simp only [sepBy] at h
  cases hi : item s ts with
  | none => rw [hi] at h; cases h
  | some o =>
    obtain ⟨s₁, ts₁⟩ := o
    rw [hi] at h
    simp only at h
    refine ⟨s₁, ts₁, rfl, ?_⟩
    cases hn : next ts₁ with
    | none =>
      rw [hn] at h
      exact .inl ⟨rfl, (Option.some.inj h).symm⟩
    | some ts₂ =>
      rw [hn] at h
      exact .inr ⟨ts₂, rfl, h⟩

/-- What every item establishes. -/
theorem sepBy_result {P : S → Prop} (hitem : ∀ s ts s' ts', item s ts = some (s', ts') → P s') {fuel : Nat} {s s' : S}
    {ts ts' : List T} (h : sepBy item next fuel s ts = some (s', ts')) : P s' := by
  induction fuel generalizing s ts with
  | zero => cases h
  | succ fuel ih =>
    obtain ⟨s₁, ts₁, hi, ⟨-, hb⟩ | ⟨ts₂, -, h⟩⟩ := sepBy_step h
    · cases hb
      exact hitem s ts _ _ hi
    · exact ih h

/-- What an item and the separator do to a state and the tokens, the list does. -/
theorem sepBy_preorder {R : S × List T → S × List T → Prop} (htrans : ∀ a b c, R a b → R b c → R a c)
    (hitem : ∀ s ts b, item s ts = some b → R (s, ts) b) (hnext : ∀ s ts ts', next ts = some ts' → R (s, ts) (s, ts'))
    {fuel : Nat} {s : S} {ts : List T} {b : S × List T} (h : sepBy item next fuel s ts = some b) : R (s, ts) b := by
  induction fuel generalizing s ts with
  | zero => cases h
  | succ fuel ih =>
    obtain ⟨s₁, ts₁, hi, ⟨-, rfl⟩ | ⟨ts₂, hn, h⟩⟩ := sepBy_step h
    · exact hitem s ts _ hi
    · exact htrans _ _ _ (hitem s ts _ hi) (htrans _ _ _ (hnext s₁ ts₁ ts₂ hn) (ih h))

/-- Two parses that leave the same tokens, in related states. -/
def Aligned {S' : Type} (R : S → S' → Prop) (a : S × List T) (b : S' × List T) : Prop := R a.1 b.1 ∧ a.2 = b.2

/-- Items that keep two states related do so along a list. -/
theorem sepBy_rel {S' : Type} {R : S → S' → Prop} {item' : S' → List T → Option (S' × List T)}
    (hitem : ∀ s s' ts, R s s' → Option.Rel (Aligned R) (item s ts) (item' s' ts)) {fuel : Nat} {s : S} {s' : S'}
    {ts : List T} (h : R s s') : Option.Rel (Aligned R) (sepBy item next fuel s ts) (sepBy item' next fuel s' ts) := by
  induction fuel generalizing s s' ts with
  | zero => exact .none
  | succ fuel ih =>
    simp only [sepBy]
    have hrel := hitem s s' ts h
    generalize item s ts = o at hrel ⊢
    generalize item' s' ts = o' at hrel ⊢
    cases hrel with
    | none => exact .none
    | @some a b hab =>
      obtain ⟨s₁, ts₁⟩ := a
      obtain ⟨s₂, ts₂⟩ := b
      obtain ⟨hr, hts⟩ := hab
      cases hts
      simp only
      cases next ts₁ with
      | none => exact .some ⟨hr, rfl⟩
      | some ts₂ => exact ih hr

end SepBy

/-! ## The fields of a monitor -/

inductive Output
  | none
  | stdout
  | stderr
  | file (path : Text)
  deriving DecidableEq, Repr

/-- The variables of `parser.y` that the fields of a monitor set. -/
structure Fields where
  perfPluginName : Option Text
  reductionPluginName : Option Text
  reductionCode : Option Text
  display : Int
  window : Nat
  locationDepth : Nat
  locationIndex : Int
  events : List Text
  reductions : List Text
  output : Output
  deriving DecidableEq, Repr

/-- `reset_monitor_fields` -/
def Fields.reset : Fields where
  perfPluginName := none
  reductionPluginName := none
  reductionCode := none
  display := 0
  window := 1
  locationDepth := 0
  locationIndex := -1
  events := []
  reductions := []
  output := .stdout

/-- The value of a list of digits. -/
def digitsValue (ds : Text) : Nat := ds.foldl (fun n c => 10 * n + (c.toNat - '0'.toNat)) 0

/-- `atoi` on an integer token: `strtol` with its limits, cut to an `int`. -/
def atoi (s : Text) : Int :=
  match s with
  | '-' :: ds => (-Int.ofNat (if digitsValue ds < 9223372036854775808 then digitsValue ds
      else 9223372036854775808)).bmod 4294967296
  | ds => (Int.ofNat (if digitsValue ds < 9223372036854775808 then digitsValue ds
      else 9223372036854775807)).bmod 4294967296

/-- `%d` of a number that is not negative. -/
def decimal (n : Nat) : Text := Nat.toDigits 10 n

/-! ## Reductions -/

/-- `NAME '=' commutative_expr`. The samples are numbered by the names so far. -/
def assignement (f : Fields) : List Token → Option (Fields × List Token)
  | .name n :: .char '=' :: ts =>
    match commExpr [] .empty none ts with
    | some (x, ts) =>
      some ({ f with
        reductionCode := some (f.reductionCode.getD [] ++ "m->samples[".toList ++ decimal f.reductions.length ++
          "]=".toList ++ x ++ ";\n".toList)
        reductions := f.reductions ++ [n] }, ts)
    | none => none
  | _ => none

def comma : List Token → Option (List Token)
  | .char ',' :: ts => some ts
  | _ => none

def assignementList (f : Fields) (ts : List Token) : Option (Fields × List Token) :=
  sepBy assignement comma (ts.length + 1) f ts

/-- What the action of `reduction` puts around the assignments. -/
def wrapReduction (code : Text) : Text :=
  "double * events  = hmonitor_get_events(m, m->last);\n".toList ++ code ++ "\x7d\n".toList

def reduction (f : Fields) (ts : List Token) : Option (Fields × List Token) :=
  match ts with
  | .integer n :: .char '#' :: .name g :: ts =>
    some ({ f with
      reductionPluginName := some g
      reductions := f.reductions ++
        List.replicate (atoi n).toNat (('V' :: decimal (atoi n).toNat).take 15) }, ts)
  | ts =>
    match assignementList f ts with
    | some (f, ts) => some ({ f with reductionCode := f.reductionCode.map wrapReduction }, ts)
    | none => none

/-! ## Fields -/

def event (es : List Text) : List Token → Option (List Text × List Token)
  | .name s :: ts => some (es ++ [s], ts)
  | .perfCtr s :: ts => some (es ++ [s], ts)
  | .netCtr s :: ts => some (es ++ [s], ts)
  | _ => none

def semicolon (f : Fields) : List Token → Option (Fields × List Token)
  | .char ';' :: ts => some (f, ts)
  | _ => none

/-- One field; `locationParse` is the depth of a parsed location. -/
def field (locationParse : Text → Option Nat) (f : Fields) : List Token → Option (Fields × List Token)
  | .objField :: .name s :: .char ';' :: ts => (locationParse s).map fun d => ({ f with locationDepth := d }, ts)
  | .objField :: .name s :: .char ':' :: .integer i :: .char ';' :: ts =>
    (locationParse s).map fun d => ({ f with locationDepth := d, locationIndex := atoi i }, ts)
  | .reductionField :: ts => (reduction f ts).bind fun (f, ts) => semicolon f ts
  | .perfLibField :: .name s :: .char ';' :: ts => some ({ f with perfPluginName := some s }, ts)
  | .displayField :: .integer i :: .char ';' :: ts => some ({ f with display := atoi i }, ts)
  | .outputField :: .integer i :: .char ';' :: ts =>
    let out := atoi i
    some ({ f with output := if out ≤ 0 then .none else if out = 2 then .stderr else .stdout }, ts)
  | .outputField :: .path p :: .char ';' :: ts => some ({ f with output := .file p }, ts)
  | .windowField :: .integer i :: .char ';' :: ts => some ({ f with window := ((atoi i) % 4294967296).toNat }, ts)
  | .evsetField :: ts =>
    (sepBy event comma (ts.length + 1) f.events ts).bind fun (es, ts) => semicolon { f with events := es } ts
  | _ => none

/-- A field list ends at the brace. -/
def nextField : List Token → Option (List Token)
  | .char '}' :: _ => none
  | ts => some ts

def fieldList (locationParse : Text → Option Nat) (ts : List Token) : Option (Fields × List Token) :=
  sepBy (field locationParse) nextField (ts.length + 1) .reset ts

/-! ## Monitors -/

/-- A monitor as `monitor_create` finds it. -/
structure Block where
  id : Text
  fields : Fields
  deriving DecidableEq, Repr

/-- The file that `monitor_create` builds for the reduction `code` of the monitor `id`. -/
def functionSource (id code : Text) : Text :=
  "#include <hmon/hmonitor.h>\n\n".toList ++ "\nvoid ".toList ++ id ++ "(hmon m)\x7b\n".toList ++ code

/-- `NAME '{' field_list '}'` -/
def monitor (locationParse : Text → Option Nat) (bs : List Block) : List Token → Option (List Block × List Token)
  | .name id :: .char '{' :: ts =>
    match fieldList locationParse ts with
    | some (f, .char '}' :: ts) =>
      let plugin := if f.reductionCode.isSome then f.reductionPluginName.or (some id) else f.reductionPluginName
      some (bs ++ [⟨id, { f with reductionPluginName := plugin }⟩], ts)
    | _ => none
  | _ => none

def nextMonitor (ts : List Token) : Option (List Token) := if ts = [] then none else some ts

/-- The monitors of a configuration that the parser accepts. -/
def config (locationParse : Text → Option Nat) (ts : List Token) : Option (List Block) :=
  match sepBy (monitor locationParse) nextMonitor (ts.length + 1) [] ts with
  | some (bs, []) => some bs
  | _ => none

end Hmon.Config
