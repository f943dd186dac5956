import CssExtract.Styled.Extraction
import Mathlib.Tactic.SplitIfs

namespace CssExtract.Styled

open Eval Script

theorem hasShape_anySite (kind : String) (kinds : List String) :
    hasShape anySite ("callee" :: kind :: kinds) = true := by
  simp [hasShape, anySite, eachAdmits, Constraint.admits]

theorem hasShape_supportedSite {kinds : List String} :
    hasShape supportedSite ("callee" :: kinds) = true ↔
      ∃ k k', kinds = [k, k'] ∧ (k = "call" ∨ k = "member") ∧ (k' = "template" ∨ k' = "call") := by
  rcases kinds with _ | ⟨k, _ | ⟨k', _ | ⟨k'', kinds⟩⟩⟩ <;>
    simp [hasShape, supportedSite, eachAdmits, Constraint.admits, and_assoc]

namespace Processor

variable {p q r : Processor}

def Keeps (p q : Processor) : Prop :=
  ∃ issued interpolations cssText, q = { p with issued, interpolations, cssText }

theorem Keeps.refl (p : Processor) : Keeps p p := ⟨_, _, _, rfl⟩

theorem Keeps.trans (hpq : Keeps p q) (hqr : Keeps q r) : Keeps p r := by
  obtain ⟨_, _, _, rfl⟩ := hpq
  obtain ⟨_, _, _, rfl⟩ := hqr
  exact ⟨_, _, _, rfl⟩

theorem Keeps.replacement_eq (h : Keeps p q) : q.replacement = p.replacement := by
  obtain ⟨_, _, _, rfl⟩ := h
  rfl

theorem buildHole_keeps (p : Processor) (values : List (Nat × Value)) (css : String)
    (hole : TemplateHole) (index : Nat) : Keeps p (p.buildHole values css hole index).2 := by
  simp only [buildHole]
  split
  · exact .refl p
  · split
    · exact .refl p
    · exact ⟨_, _, _, rfl⟩

theorem buildHoles_keeps (values : List (Nat × Value)) (holes : List TemplateHole) (index : Nat)
    (css : String) (p : Processor) : Keeps p (buildHoles values holes index css p).2 := by
  induction holes generalizing index css p with
  | nil => exact .refl p
  | cons hole holes ih =>
      have hone := p.buildHole_keeps values css hole index
      rw [buildHoles]
      generalize p.buildHole values css hole index = built at hone
      obtain ⟨result, q⟩ := built
      cases result with
      | error failure => exact hone
      | ok text => exact hone.trans (ih _ _ _)

theorem build_keeps (p : Processor) (cache : ValueCache) (values : List (Nat × Value)) :
    Keeps p (p.build cache values).2 := by
  have hall := buildHoles_keeps values p.template.holes 0 p.template.first p
  simp only [build]
  split
  · exact .refl p
  · generalize buildHoles values p.template.holes 0 p.template.first p = built at hall
    obtain ⟨result, q⟩ := built
    cases result with
    | error failure => exact hall
    | ok css => exact hall.trans ⟨_, _, _, rfl⟩

theorem lookup_of_fixedValue? {values : List (Nat × Value)} {index : Nat} {value : Value}
    (h : fixedValue? values index = some value) : values.lookup index = some value := by
  simp only [fixedValue?] at h
  split at h
  · simp at h
  · exact h

/-- Why a hole cannot be built: its expression has no text, or its value cannot be inserted. -/
inductive Obstacle (values : List (Nat × Value)) (hole : TemplateHole) (index : Nat) : Failure → Prop
  | notCode (code : hole.expr.code? = none) : Obstacle values hole index .notCode
  | value {source : String} {value : Value} {failure : Failure}
      (code : hole.expr.code? = some source) (fixed : fixedValue? values index = some value)
      (metadata : value.metadata? = none)
      (check : checkValue value hole.expr hole.loc = .error failure) :
      Obstacle values hole index failure

variable {values : List (Nat × Value)} {css : String} {hole : TemplateHole} {index : Nat}
  {failure : Failure}

theorem valueText_eq_error_iff {value : Value} :
    valueText value hole = .error failure ↔
      value.metadata? = none ∧ checkValue value hole.expr hole.loc = .error failure := by
  simp only [valueText]
  cases value.metadata? with
  | some found => simp
  | none =>
      cases checkValue value hole.expr hole.loc <;> simp [bind, Except.bind, pure, Except.pure]

theorem buildHole_eq_error_iff :
    (p.buildHole values css hole index).1 = .error failure ↔ Obstacle values hole index failure := by
  simp only [buildHole]
  constructor
  · intro h
    split at h
    · rename_i hcode
      obtain rfl := Except.error.inj h
      exact .notCode hcode
    · rename_i hcode
      split at h
      · rename_i value hfixed
        cases htext : valueText value hole with
        | ok text => simp [htext, Except.map] at h
        | error failure' =>
            obtain rfl : failure' = failure := by simpa [htext, Except.map] using h
            obtain ⟨hmetadata, hcheck⟩ := valueText_eq_error_iff.1 htext
            exact .value hcode hfixed hmetadata hcheck
      · simp at h
  · rintro (hcode | @⟨source, value, _, hcode, hfixed, hmetadata, hcheck⟩)
    · simp [hcode]
    · simp [hcode, hfixed, valueText_eq_error_iff.2 ⟨hmetadata, hcheck⟩, Except.map]

theorem exists_obstacle {holes : List TemplateHole}
    (h : (buildHoles values holes index css p).1 = .error failure) :
    ∃ hole ∈ holes.zipIdx index, Obstacle values hole.1 hole.2 failure := by
  induction holes generalizing index css p with
  | nil => simp [buildHoles] at h
  | cons hole holes ih =>
      have hone : (p.buildHole values css hole index).1 = .error failure ↔
          Obstacle values hole index failure := buildHole_eq_error_iff
      rw [buildHoles] at h
      generalize p.buildHole values css hole index = built at h hone
      obtain ⟨result, q⟩ := built
      rw [List.zipIdx_cons]
      cases result with
      | error failure' => exact ⟨_, List.mem_cons_self, hone.1 h⟩
      | ok text =>
          obtain ⟨found, hmem, hobstacle⟩ := ih h
          exact ⟨found, List.mem_cons_of_mem _ hmem, hobstacle⟩

theorem no_obstacle {holes : List TemplateHole} {text : String}
    (h : (buildHoles values holes index css p).1 = .ok text) :
    ∀ hole ∈ holes.zipIdx index, ∀ failure, ¬ Obstacle values hole.1 hole.2 failure := by
  induction holes generalizing index css p with
  | nil => simp
  | cons hole holes ih =>
      have hone (failure : Failure) : (p.buildHole values css hole index).1 = .error failure ↔
          Obstacle values hole index failure := buildHole_eq_error_iff
      rw [buildHoles] at h
      generalize p.buildHole values css hole index = built at h hone
      obtain ⟨result, q⟩ := built
      rw [List.zipIdx_cons, List.forall_mem_cons]
      cases result with
      | error failure' => simp at h
      | ok text => exact ⟨fun failure hobstacle => by simpa using (hone failure).2 hobstacle, ih h⟩

structure Fresh (p : Processor) : Prop where
  issued : p.issued = {}
  interpolations : p.interpolations = []
  cssText : p.cssText = none
  replacement : p.replacement = none

def wrapping (s : SiteContext) (node : Node) (template : Template)
    (found : Component × List Operand) : Processor where
  callee := node
  template := template
  component := found.1
  dependencies := found.2
  options := s.options
  filename := s.filename
  location := s.location
  displayName := s.displayName
  className := (namesOf s.displayName s.idx s.options s.filename).className
  slug := (namesOf s.displayName s.idx s.options s.filename).slug

theorem wrapping_fresh (s : SiteContext) (node : Node) (template : Template)
    (found : Component × List Operand) : (wrapping s node template found).Fresh :=
  ⟨rfl, rfl, rfl, rfl⟩

variable {t : Host} {s : SiteContext} {params : List Param}

/-- Only what a site wraps can make a failure of its own. -/
theorem create_cases (t : Host) (s : SiteContext) (params : List Param) :
    create t s params = (.error .skip, []) ∨
    create t s params = (.error (.failed (misused none)), []) ∨
    (create t s params = (.error .noCallee, []) ∧ ∀ node, params.head? ≠ some (.callee node)) ∨
    ∃ node operation template, params = [.callee node, operation, .template template] ∧
      create t s params =
        ((match ((componentOf t s operation).run.run []).1 with
          | .error failure => .error (.failed failure)
          | .ok found => .ok (wrapping s node template found)),
          ((componentOf t s operation).run.run []).2) := by
  unfold create
  extract_lets kinds
  split_ifs
  · exact .inl rfl
  · exact .inr (.inl rfl)
  split
  · rename_i callee operation template
    split
    · refine .inr (.inr (.inr ⟨_, _, _, rfl, ?_⟩))
      generalize (componentOf t s _).run.run [] = wrapped
      obtain ⟨result, warnings⟩ := wrapped
      cases result <;> rfl
    · rename_i hcallee
      refine .inr (.inr (.inl ⟨rfl, fun node h => ?_⟩))
      exact hcallee node (Option.some.inj h)
  · exact .inl rfl

theorem create_operation {node : Node} {operation : Param} {template : Template}
    (h : operation.kind = "call" ∨ operation.kind = "member") :
    create t s [.callee node, operation, .template template] =
      ((match ((componentOf t s operation).run.run []).1 with
        | .error failure => .error (.failed failure)
        | .ok found => .ok (wrapping s node template found)),
        ((componentOf t s operation).run.run []).2) := by
  have hsupported : hasShape supportedSite ["callee", operation.kind, "template"] = true :=
    hasShape_supportedSite.2 ⟨_, _, rfl, h, .inl rfl⟩
  have hkinds : [.callee node, operation, .template template].map Param.kind =
      ["callee", operation.kind, "template"] := rfl
  simp only [create, hkinds, hasShape_anySite, hsupported, Bool.not_true, Bool.false_eq_true, if_false]
  generalize (componentOf t s operation).run.run [] = wrapped
  obtain ⟨result, warnings⟩ := wrapped
  cases result <;> rfl

theorem create_eq_ok (h : (create t s params).1 = .ok p) :
    ∃ node operation template found, params = [.callee node, operation, .template template] ∧
      ((componentOf t s operation).run.run []).1 = .ok found ∧
      p = wrapping s node template found := by
  obtain hc | hc | ⟨hc, -⟩ | ⟨node, operation, template, rfl, hc⟩ := create_cases t s params
  · simp [hc] at h
  · simp [hc] at h
  · simp [hc] at h
  · simp only [hc] at h
    split at h
    · simp at h
    · rename_i found hfound
      exact ⟨node, operation, template, found, rfl, hfound, (Except.ok.inj h).symm⟩

theorem create_of_skip (h : (create t s params).1 = .error .skip) :
    create t s params = (.error .skip, []) := by
  obtain hc | hc | ⟨hc, -⟩ | ⟨node, operation, template, rfl, hc⟩ := create_cases t s params
  · exact hc
  · simp [hc] at h
  · simp [hc] at h
  · simp only [hc] at h
    split at h <;> simp at h

theorem create_callee {node : Node} :
    (create t s (.callee node :: params)).1 ≠ .error .noCallee := by
  obtain hc | hc | ⟨-, hc⟩ | ⟨_, operation, template, -, hc⟩ :=
    create_cases t s (.callee node :: params)
  · simp [hc]
  · simp [hc]
  · exact absurd rfl (hc node)
  · simp only [hc]
    split <;> simp

theorem build_fst {cache : ValueCache} (hnew : p.cssText = none) :
    (p.build cache values).1 =
      match (buildHoles values p.template.holes 0 p.template.first p).1 with
      | .error failure => .error failure
      | .ok css => p.extractRules cache css p.location := by
  have hkeeps := buildHoles_keeps values p.template.holes 0 p.template.first p
  simp only [build, hnew, Option.isSome_none, Bool.false_eq_true, if_false]
  generalize buildHoles values p.template.holes 0 p.template.first p = built at hkeeps ⊢
  obtain ⟨result, q⟩ := built
  cases result with
  | error failure => rfl
  | ok css =>
      obtain ⟨issued, interpolations, cssText, rfl⟩ := hkeeps
      rfl

theorem build_eq_error {cache : ValueCache} (hnew : p.cssText = none)
    (h : (p.build cache values).1 = .error failure) :
    (∃ hole ∈ p.template.holes.zipIdx 0, Obstacle values hole.1 hole.2 failure) ∨
      ∃ css, p.extractRules cache css p.location = .error failure := by
  rw [build_fst hnew] at h
  split at h
  · rename_i hholes
    obtain rfl := Except.error.inj h
    exact .inl (exists_obstacle hholes)
  · exact .inr ⟨_, h⟩

/-- Building a processor gives one rule at most. -/
theorem build_eq_ok {cache : ValueCache} {values : List (Nat × Value)} {rules : Rules}
    (h : (p.build cache values).1 = .ok rules) :
    ∃ rule, rules = [(rule.selector, rule)] := by
  simp only [build] at h
  split at h
  · simp at h
  · split at h
    · simp at h
    · simp only [extractRules] at h
      split at h
      · simp at h
      · obtain rfl := Except.ok.inj h
        exact ⟨⟨_, _, _, _, _⟩, rfl⟩

end Processor

end CssExtract.Styled
