import CssExtract.Proofs.Chain
import CssExtract.Proofs.VariableAgreement

namespace CssExtract.Styled

open Eval Script

inductive Serializable : Value → Prop
  | null : Serializable .null
  | bool (b : Bool) : Serializable (.bool b)
  | string (s : String) : Serializable (.string s)
  | int (n : Int) : Serializable (.number (.int n))
  | float {x : Float} (hnan : x.isNaN = false) (hinf : x.isInf = false) :
      Serializable (.number (.float x))
  | array {items : List Value} (h : ∀ v ∈ items, Serializable v) : Serializable (.array items)
  | object {entries : List (String × Value)} (h : ∀ entry ∈ entries, Serializable entry.2) :
      Serializable (.object entries)

inductive Ranged : Value → Prop
  | scalar {s : Scalar} (h : InRange s) : Ranged (.scalar s)
  | array {items : List Value} (h : ∀ v ∈ items, Ranged v) : Ranged (.array items)
  | object {entries : List (String × Value)} (h : ∀ entry ∈ entries, Ranged entry.2) :
      Ranged (.object entries)
  | styled (className : String) (base : Value) : Ranged (.styled className base)
  | carrier (metadata : Value) : Ranged (.carrier metadata)
  | cycle (levels : Nat) : Ranged (.cycle levels)

def Decides (result : Except Failure Bool) (P : Prop) : Prop :=
  (result = .ok true ∧ P) ∨ (result = .ok false ∧ ¬ P)

variable {P Q : Prop} {result next : Except Failure Bool}

theorem Decides.congr (h : Decides result P) (hiff : P ↔ Q) : Decides result Q := by
  rwa [Decides, ← hiff]

theorem Decides.and (h : Decides result P) (h' : Decides next Q) :
    Decides (do if ← result then next else .ok false) (P ∧ Q) := by
  obtain ⟨rfl, hP⟩ | ⟨rfl, hP⟩ := h
  · exact h'.congr (by simp [hP])
  · exact .inr ⟨rfl, fun hboth => hP hboth.1⟩

theorem serializableScalar_decides {s : Scalar} (h : InRange s) :
    Decides (serializableScalar s) (Serializable (.scalar s)) := by
  cases s with
  | null => exact .inl ⟨rfl, .null⟩
  | bool b => exact .inl ⟨rfl, .bool b⟩
  | string s => exact .inl ⟨rfl, .string s⟩
  | number n =>
      cases n with
      | int n =>
          have hn : n.natAbs < Number.floatBound := h
          exact .inl ⟨by simp only [serializableScalar, finite?, if_pos hn], .int n⟩
      | float x =>
          have hresult : serializableScalar (.number (.float x)) = .ok (Number.isFinite x) := rfl
          cases hfinite : Number.isFinite x with
          | true =>
              obtain ⟨hnan, hinf⟩ : x.isNaN = false ∧ x.isInf = false := by
                simpa [Number.isFinite] using hfinite
              exact .inl ⟨hresult.trans (by rw [hfinite]), .float hnan hinf⟩
          | false =>
              refine .inr ⟨hresult.trans (by rw [hfinite]), fun h => ?_⟩
              cases h with
              | float hnan hinf =>
                  rw [Number.isFinite, hnan, hinf] at hfinite
                  exact absurd hfinite (by decide)
  | undefined | function | error | failure =>
      refine .inr ⟨rfl, ?_⟩
      intro h
      cases h

theorem serializable_array_iff {items : List Value} :
    (∀ v ∈ items, Serializable v) ↔ Serializable (.array items) :=
  ⟨.array, fun | .array h => h⟩

theorem serializable_object_iff {entries : List (String × Value)} :
    (∀ entry ∈ entries, Serializable entry.2) ↔ Serializable (.object entries) :=
  ⟨.object, fun | .object h => h⟩

mutual

theorem serializable_decides : ∀ (v : Value), Ranged v → Decides (serializable v) (Serializable v)
  | .scalar _, .scalar h => serializableScalar_decides h
  | .array items, .array h => (allSerializable_decides items h).congr serializable_array_iff
  | .object entries, .object h =>
    (allEntriesSerializable_decides entries h).congr serializable_object_iff
  | .styled _ _, _ => .inr ⟨rfl, nofun⟩
  | .carrier _, _ => .inr ⟨rfl, nofun⟩
  | .cycle _, _ => .inr ⟨rfl, nofun⟩

theorem allSerializable_decides : ∀ (vs : List Value), (∀ v ∈ vs, Ranged v) →
    Decides (allSerializable vs) (∀ v ∈ vs, Serializable v)
  | [], _ => .inl ⟨rfl, by simp⟩
  | v :: vs, h => by
    obtain ⟨hv, hvs⟩ := List.forall_mem_cons.1 h
    rw [List.forall_mem_cons]
    exact (serializable_decides v hv).and (allSerializable_decides vs hvs)

theorem allEntriesSerializable_decides : ∀ (es : List (String × Value)),
    (∀ entry ∈ es, Ranged entry.2) →
      Decides (allEntriesSerializable es) (∀ entry ∈ es, Serializable entry.2)
  | [], _ => .inl ⟨rfl, by simp⟩
  | (key, v) :: es, h => by
    obtain ⟨hv, hes⟩ := List.forall_mem_cons.1 h
    rw [List.forall_mem_cons]
    exact (serializable_decides v hv).and (allEntriesSerializable_decides es hes)

end

def errorMessage? : Value → Option String
  | .scalar (.error message) | .scalar (.failure message) => some message
  | _ => none

def rejection (value : Value) (source : String) (loc : Option Location) : StyledError :=
  match errorMessage? value with
  | some message => ⟨.evaluation message, loc⟩
  | none => ⟨.interpolation value.toText source, loc⟩

variable {value : Value} {node : Node} {loc : Option Location} {source : String}

theorem checkValue_eq (h : value ≠ .function) :
    checkValue value node loc = (do
      if ← serializable value then return ()
      match errorMessage? value with
      | some message => throw (.styled ⟨.evaluation message, loc⟩)
      | none =>
        match node.code? with
        | none => throw .notCode
        | some source => throw (.styled ⟨.interpolation value.toText source, loc⟩)) := by
  cases value with
  | scalar s =>
      cases s with
      | function => exact absurd rfl h
      | _ => rfl
  | _ => rfl

theorem checkValue_of_serializable (h : value = .function ∨ Serializable value)
    (hranged : Ranged value) : checkValue value node loc = .ok () := by
  by_cases hfunction : value = .function
  · rw [hfunction]
    rfl
  obtain ⟨hyes, -⟩ | ⟨-, hno⟩ := serializable_decides value hranged
  · rw [checkValue_eq hfunction, hyes]
    rfl
  · exact absurd (h.resolve_left hfunction) hno

theorem checkValue_of_rejected (hfunction : value ≠ .function) (hno : ¬ Serializable value)
    (hranged : Ranged value) (hcode : node.code? = some source) :
    checkValue value node loc = .error (.styled (rejection value source loc)) := by
  obtain ⟨-, hyes⟩ | ⟨hresult, -⟩ := serializable_decides value hranged
  · exact absurd hyes hno
  · rw [checkValue_eq hfunction, hresult, hcode, rejection]
    cases errorMessage? value <;> rfl

/-- An expression has a value that cannot be inserted and that is no styled component either. -/
def Slot.Rejects (values : List (Nat × Value)) (slot : Slot) (value : Value) : Prop :=
  values.lookup slot.2 = some value ∧ value ≠ .function ∧ value.metadata? = none ∧
    ¬ Serializable value

namespace Processor

variable {values : List (Nat × Value)} {slot : Slot} {failure : Failure} {p : Processor}
  {cache : ValueCache}

theorem fixedValue?_eq_some_iff {index : Nat} :
    fixedValue? values index = some value ↔ values.lookup index = some value ∧ value ≠ .function := by
  simp only [fixedValue?]
  constructor
  · intro h
    split at h
    · simp at h
    · rename_i hno
      exact ⟨h, by rintro rfl; exact hno h⟩
  · rintro ⟨hvalue, hfunction⟩
    rw [hvalue]
    split
    · rename_i hsome
      exact absurd (Option.some.inj hsome) hfunction
    · rfl

theorem ranged_of_lookup {index : Nat} (hranged : ∀ entry ∈ values, Ranged entry.2)
    (h : values.lookup index = some value) : Ranged value := by
  obtain ⟨before, after, rfl, -⟩ := List.lookup_eq_some_iff.1 h
  exact hranged (index, value) (by simp)

theorem obstacle_iff (hranged : ∀ entry ∈ values, Ranged entry.2)
    (hcode : slot.1.expr.code? = some source) :
    Obstacle values slot.1 slot.2 failure ↔
      ∃ value, slot.Rejects values value ∧ failure = .styled (rejection value source slot.1.loc) := by
  constructor
  · rintro (hnone | @⟨_, value, _, -, hfixed, hmetadata, hcheck⟩)
    · simp [hcode] at hnone
    · obtain ⟨hvalue, hfunction⟩ := fixedValue?_eq_some_iff.1 hfixed
      have hvalueRanged := ranged_of_lookup hranged hvalue
      have hno : ¬ Serializable value := by
        intro hyes
        rw [checkValue_of_serializable (.inr hyes) hvalueRanged] at hcheck
        simp at hcheck
      rw [checkValue_of_rejected hfunction hno hvalueRanged hcode] at hcheck
      exact ⟨value, ⟨hvalue, hfunction, hmetadata, hno⟩, (Except.error.inj hcheck).symm⟩
  · rintro ⟨value, ⟨hvalue, hfunction, hmetadata, hno⟩, rfl⟩
    exact .value hcode (fixedValue?_eq_some_iff.2 ⟨hvalue, hfunction⟩) hmetadata
      (checkValue_of_rejected hfunction hno (ranged_of_lookup hranged hvalue) hcode)

/-- The first obstacle decides how building ends. -/
theorem buildHoles_of_obstacle {holes : List TemplateHole} {index : Nat} {css : String}
    {before after : List Slot} (hslots : holes.zipIdx index = before ++ slot :: after)
    (hbefore : ∀ other ∈ before, ∀ failure, ¬ Obstacle values other.1 other.2 failure)
    (h : Obstacle values slot.1 slot.2 failure) :
    (buildHoles values holes index css p).1 = .error failure := by
  induction holes generalizing index css p before with
  | nil => simp at hslots
  | cons hole holes ih =>
      rw [List.zipIdx_cons] at hslots
      have hone (failure : Failure) : (p.buildHole values css hole index).1 = .error failure ↔
          Obstacle values hole index failure := buildHole_eq_error_iff
      rw [buildHoles]
      generalize p.buildHole values css hole index = built at hone
      obtain ⟨result, q⟩ := built
      cases before with
      | nil =>
          obtain ⟨rfl, -⟩ := List.cons.inj hslots
          obtain rfl : result = .error failure := (hone failure).2 h
          rfl
      | cons first before =>
          obtain ⟨rfl, hrest⟩ := List.cons.inj hslots
          obtain ⟨hfirst, hbefore⟩ := List.forall_mem_cons.1 hbefore
          cases result with
          | error failure' => exact absurd ((hone failure').1 rfl) (hfirst failure')
          | ok text => exact ih hrest hbefore

end Processor

namespace Processor

/-- Building admits the values of a template that a style sheet can hold, and no others. -/
structure Guards (p : Processor) (cache : ValueCache) (values : List (Nat × Value)) : Prop where
  raises_iff : (∃ failure, (p.build cache values).1 = .error failure ∧ failure.OfValue) ↔
    ∃ slot ∈ p.template.holes.zipIdx, ∃ value, Slot.Rejects values slot value
  first : ∀ before slot after, p.template.holes.zipIdx = before ++ slot :: after →
    (∀ other ∈ before, ∀ value, ¬ Slot.Rejects values other value) →
    ∀ value, Slot.Rejects values slot value → ∃ e source,
      (p.build cache values).1 = .error (.styled e) ∧ slot.1.expr.code? = some source ∧
      e.loc = slot.1.loc ∧
      (∀ message, errorMessage? value = some message →
        e.cause = .evaluation message ∧ e.fix = none) ∧
      (errorMessage? value = none →
        e.cause = .interpolation value.toText source ∧ e.fix = some ("String(" ++ source ++ ")"))

end Processor

theorem diagnostic_of_ok (h : checkValue value node loc = .ok ()) :
    valueDiagnostic? value node loc = .ok none := by
  rw [valueDiagnostic?, h]

theorem diagnostic_of_styled {e : StyledError} (h : checkValue value node loc = .error (.styled e)) :
    valueDiagnostic? value node loc = .ok (some (e.diagnostic none)) := by
  rw [valueDiagnostic?, h]

/-- The check of a value and the message about it tell the same. -/
structure Reports (value : Value) (node : Node) (loc : Option Location) : Prop where
  raises_iff : (∃ e, checkValue value node loc = .error (.styled e)) ↔
    value ≠ .function ∧ ¬ Serializable value
  some_iff : (∃ d, valueDiagnostic? value node loc = .ok (some d)) ↔
    ∃ e, checkValue value node loc = .error (.styled e)
  none_iff : valueDiagnostic? value node loc = .ok none ↔
    ¬ ∃ e, checkValue value node loc = .error (.styled e)
  same : ∀ d e, valueDiagnostic? value node loc = .ok (some d) →
    checkValue value node loc = .error (.styled e) →
    d.message = e.message ∧ d.loc = e.loc ∧ d.fix = e.fix ∧ d.code = e.code ∧ d.severity = .error

theorem reports (hranged : Ranged value) (hcode : node.code? = some source) :
    Reports value node loc := by
  by_cases hrejected : value ≠ .function ∧ ¬ Serializable value
  · have hcheck : checkValue value node loc = _ :=
      checkValue_of_rejected hrejected.1 hrejected.2 hranged hcode
    have hdiagnostic := diagnostic_of_styled hcheck
    constructor
    case raises_iff => exact iff_of_true ⟨_, hcheck⟩ hrejected
    case some_iff => exact iff_of_true ⟨_, hdiagnostic⟩ ⟨_, hcheck⟩
    case none_iff => simp [hdiagnostic, hcheck]
    case same =>
      intro d e hd he
      obtain rfl := Failure.styled.inj (Except.error.inj (hcheck.symm.trans he))
      obtain rfl := Option.some.inj (Except.ok.inj (hdiagnostic.symm.trans hd))
      exact ⟨rfl, Option.or_none, rfl, rfl, rfl⟩
  · have hcheck : checkValue value node loc = _ :=
      checkValue_of_serializable (by tauto) hranged
    have hdiagnostic := diagnostic_of_ok hcheck
    constructor
    case raises_iff => exact iff_of_false (by simp [hcheck]) hrejected
    case some_iff => simp [hdiagnostic, hcheck]
    case none_iff => simp [hdiagnostic, hcheck]
    case same => simp [hcheck]

theorem rejection_ofValue (value : Value) (source : String) (loc : Option Location) :
    (Failure.styled (rejection value source loc)).OfValue := by
  refine ⟨loc, ?_⟩
  rw [rejection]
  cases errorMessage? value with
  | some message => exact .inl ⟨message, rfl⟩
  | none => exact .inr ⟨_, source, rfl⟩

namespace Processor

variable {values : List (Nat × Value)} {p : Processor} {cache : ValueCache}

theorem code_of_mem_zipIdx {slot : Slot}
    (hcode : ∀ hole ∈ p.template.holes, hole.expr.isCode = true)
    (h : slot ∈ p.template.holes.zipIdx) : slot.1.expr.code? = some slot.1.expr.code := by
  rw [Node.code?, if_pos (hcode slot.1 (List.fst_mem_of_mem_zipIdx h))]

theorem build_of_first (cache : ValueCache) (hnew : p.cssText = none)
    (hcode : ∀ hole ∈ p.template.holes, hole.expr.isCode = true)
    (hranged : ∀ entry ∈ values, Ranged entry.2) {before after : List Slot} {slot : Slot}
    (hslots : p.template.holes.zipIdx = before ++ slot :: after)
    (hbefore : ∀ other ∈ before, ∀ value, ¬ Slot.Rejects values other value)
    (h : Slot.Rejects values slot value) :
    (p.build cache values).1 =
      .error (.styled (rejection value slot.1.expr.code slot.1.loc)) := by
  have hobstacle {other : Slot} {failure : Failure} (hmem : other ∈ p.template.holes.zipIdx) :
      Obstacle values other.1 other.2 failure ↔ ∃ value, other.Rejects values value ∧
        failure = .styled (rejection value other.1.expr.code other.1.loc) :=
    obstacle_iff hranged (code_of_mem_zipIdx hcode hmem)
  have hfirst : ∀ other ∈ before, ∀ failure, ¬ Obstacle values other.1 other.2 failure := by
    intro other hother failure hfailure
    obtain ⟨value, hrejects, -⟩ := (hobstacle (by simp [hslots, hother])).1 hfailure
    exact hbefore other hother value hrejects
  rw [build_fst hnew, buildHoles_of_obstacle hslots hfirst
    ((hobstacle (by simp [hslots])).2 ⟨value, h, rfl⟩)]

theorem exists_rejects {failure : Failure} (hnew : p.cssText = none)
    (hcode : ∀ hole ∈ p.template.holes, hole.expr.isCode = true)
    (hranged : ∀ entry ∈ values, Ranged entry.2)
    (h : (p.build cache values).1 = .error failure) (hvalue : failure.OfValue) :
    ∃ slot ∈ p.template.holes.zipIdx, ∃ value, Slot.Rejects values slot value := by
  obtain ⟨slot, hmem, hobstacle⟩ | ⟨css, hextract⟩ := build_eq_error hnew h
  · obtain ⟨value, hrejects, -⟩ :=
      (obstacle_iff hranged (code_of_mem_zipIdx hcode hmem)).1 hobstacle
    exact ⟨slot, hmem, value, hrejects⟩
  · rw [extractRules_eq] at hextract
    obtain ⟨loc, ⟨_, rfl⟩ | ⟨_, _, rfl⟩⟩ := hvalue
    all_goals
      split at hextract
      · simp at hextract
      · simp at hextract

theorem exists_error (hnew : p.cssText = none)
    (hcode : ∀ hole ∈ p.template.holes, hole.expr.isCode = true)
    (hranged : ∀ entry ∈ values, Ranged entry.2) {slot : Slot} {value : Value}
    (hmem : slot ∈ p.template.holes.zipIdx) (h : Slot.Rejects values slot value) :
    ∃ failure, (p.build cache values).1 = .error failure ∧ failure.OfValue := by
  have hobstacle := (obstacle_iff hranged (code_of_mem_zipIdx hcode hmem)).2 ⟨value, h, rfl⟩
  rw [build_fst hnew]
  cases hholes : (buildHoles values p.template.holes 0 p.template.first p).1 with
  | ok css => exact absurd hobstacle (no_obstacle hholes slot hmem _)
  | error failure =>
      obtain ⟨other, hother, hfailure⟩ := exists_obstacle hholes
      obtain ⟨value', -, rfl⟩ := (obstacle_iff hranged (code_of_mem_zipIdx hcode hother)).1 hfailure
      exact ⟨_, rfl, rejection_ofValue _ _ _⟩

end Processor

/-- The values of a template are checked in their order, and nothing but the first that no style
sheet can hold makes building fail over a value. -/
theorem build_guarded {t : Host} {s : SiteContext} {params : List Param} {p : Processor}
    {warnings : List Warning} {values : List (Nat × Value)}
    (hcreate : Processor.create t s params = (.ok p, warnings))
    (hcode : ∀ hole ∈ p.template.holes, hole.expr.isCode = true)
    (hranged : ∀ entry ∈ values, Ranged entry.2) (cache : ValueCache) :
    p.Guards cache values ∧ ∀ value node source loc, Ranged value → node.code? = some source →
      Reports value node loc := by
  obtain ⟨node, operation, template, found, -, -, rfl⟩ :=
    Processor.create_eq_ok (congrArg Prod.fst hcreate)
  have hnew := (Processor.wrapping_fresh s node template found).cssText
  refine ⟨?_, fun value node source loc => reports⟩
  constructor
  case raises_iff =>
    constructor
    · rintro ⟨failure, hbuild, hvalue⟩
      exact Processor.exists_rejects hnew hcode hranged hbuild hvalue
    · rintro ⟨slot, hmem, hrejects⟩
      obtain ⟨value, hrejects⟩ := hrejects
      exact Processor.exists_error hnew hcode hranged hmem hrejects
  case first =>
    intro before slot after hslots hbefore value hrejects
    have hbuild := Processor.build_of_first cache hnew hcode hranged hslots hbefore hrejects
    refine ⟨_, _, hbuild, Processor.code_of_mem_zipIdx hcode (by simp [hslots]), ?_⟩
    rw [rejection]
    cases errorMessage? value with
    | some message => simp [StyledError.fix]
    | none => simp [StyledError.fix, conversion]

def styledError? {α : Type} : Except Failure α → Option StyledError
  | .error (.styled e) => some e
  | _ => none

theorem exists_styledError {α β : Type} {result : Except Failure α} {view : StyledError → β} {b : β}
    (h : (styledError? result).map view = some b) :
    ∃ e, result = .error (.styled e) ∧ view e = b := by
  obtain ⟨e, he, hview⟩ := Option.map_eq_some_iff.1 h
  refine ⟨e, ?_, hview⟩
  simp only [styledError?] at he
  split at he
  · rw [Option.some.inj he]
  · simp at he

def gapTemplate : Template :=
  ⟨"width: ", [⟨.raw "w", none, "px; gap: "⟩, ⟨.raw "gaps", some ⟨⟨1, 9⟩, none, none⟩, "; margin: "⟩,
    ⟨.raw "m", none, ";"⟩], none⟩

def gapSite : SiteContext := ⟨"Box", 0, {}, none, none⟩

def gapValues : List (Nat × Value) :=
  [(0, .number (.int 4)), (1, .object [("row", .array [.null, .undefined])]),
    (2, .scalar (.error "no window"))]

theorem ranged_gapValues : ∀ entry ∈ gapValues, Ranged entry.2 := by
  have hwidth : Ranged (.number (.int 4)) := by
    have hlt : (4 : Int).natAbs < Number.floatBound := by decide +kernel
    exact .scalar hlt
  have hrow : ∀ v ∈ [Value.null, .undefined], Ranged v := by
    simp only [List.forall_mem_cons]
    exact ⟨.scalar trivial, .scalar trivial, by simp⟩
  have hgaps : Ranged (.object [("row", .array [.null, .undefined])]) :=
    .object (List.forall_mem_singleton.2 (.array hrow))
  simp only [gapValues, List.forall_mem_cons]
  exact ⟨hwidth, hgaps, .scalar trivial, by simp⟩

theorem gapBox_guarded :
    ∃ p, Processor.create {} gapSite
        [.callee (.identifier "styled"), .member "div", .template gapTemplate] = (.ok p, []) ∧
      (∀ hole ∈ p.template.holes, hole.expr.isCode = true) ∧
      (∀ entry ∈ gapValues, Ranged entry.2) ∧
      (∃ e, (p.build {} gapValues).1 = .error (.styled e) ∧
        (e.code, e.fix, e.loc) =
          ("invalid-interpolation", some "String(gaps)", some ⟨⟨1, 9⟩, none, none⟩)) ∧
      p.Guards {} gapValues ∧ ∀ value node source loc, Ranged value → node.code? = some source →
        Reports value node loc := by
  let p := Processor.wrapping gapSite (.identifier "styled") gapTemplate (.tag "div", [])
  have hcreate : Processor.create {} gapSite
      [.callee (.identifier "styled"), .member "div", .template gapTemplate] = (.ok p, []) := rfl
  have hcode : ∀ hole ∈ p.template.holes, hole.expr.isCode = true := by decide
  exact ⟨p, hcreate, hcode, ranged_gapValues, exists_styledError (by decide +kernel),
    build_guarded hcreate hcode ranged_gapValues {}⟩

end CssExtract.Styled
