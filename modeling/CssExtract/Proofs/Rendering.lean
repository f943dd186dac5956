import CssExtract.Proofs.VariableAgreement
import CssExtract.Proofs.VariableBook

namespace CssExtract.Styled

open Eval Script

/-- The unit that a literal text starts with, and the rest of the text. -/
inductive UnitCut (text : String) : String → String → Prop
  | percent {rest : String} (htext : text = "%" ++ rest) : UnitCut text "%" rest
  | word {unit rest : String} (htext : text = unit ++ rest)
      (hword : text.toList.takeWhile Text.isWord = unit.toList) (hunit : unit ∈ units) :
      UnitCut text unit rest
  | absent (hpercent : text.toList.head? ≠ some '%')
      (hword : String.ofList (text.toList.takeWhile Text.isWord) ∉ units) : UnitCut text "" text

theorem TemplateHole.unitCut (hole : TemplateHole) : UnitCut hole.text hole.unit hole.afterUnit := by
  have htext : hole.text = hole.unit ++ hole.afterUnit := hole.unit_append.symm
  by_cases hpercent : hole.text.toList.head? = some '%'
  · have hunit : hole.unit = "%" := by simp [unit, unitAt, hpercent]
    rw [hunit] at htext ⊢
    exact .percent htext
  by_cases hword : String.ofList (hole.text.toList.takeWhile Text.isWord) ∈ units
  · have hunit : hole.unit = String.ofList (hole.text.toList.takeWhile Text.isWord) := by
      simp [unit, unitAt, hpercent, hword]
    refine .word htext ?_ (hunit ▸ hword)
    rw [hunit, String.toList_ofList]
  · have hunit : hole.unit = "" := by simp [unit, unitAt, hpercent, hword]
    have hrest : hole.afterUnit = hole.text := by simp [afterUnit, unitAt, hpercent, hword]
    rw [hunit, hrest]
    exact .absent hpercent hword

theorem UnitCut.unique {unit rest : String} {hole : TemplateHole} (h : UnitCut hole.text unit rest) :
    unit = hole.unit ∧ rest = hole.afterUnit := by
  have hunit : unit = hole.unit := by
    cases h with
    | percent htext => simp [TemplateHole.unit, unitAt, htext]
    | word htext hword hunit =>
        have hpercent : hole.text.toList.head? ≠ some '%' := by
          intro hhead
          have hempty : unit = "" := by
            apply String.toList_injective
            rw [← hword]
            cases hlist : hole.text.toList with
            | nil => rfl
            | cons c rest =>
                obtain rfl : c = '%' := by simpa [hlist] using hhead
                rfl
          rw [hempty] at hunit
          exact absurd hunit (by decide)
        simp [TemplateHole.unit, unitAt, hpercent, hword, hunit]
    | absent hpercent hword => simp [TemplateHole.unit, unitAt, hpercent, hword]
  have htext : unit ++ rest = hole.unit ++ hole.afterUnit := by
    rw [hole.unit_append]
    cases h with
    | percent htext | word htext => exact htext.symm
    | absent => simp
  rw [hunit] at htext
  exact ⟨hunit, (String.append_right_inj _).1 htext⟩

/-- What a style sheet text has of an expression. -/
structure Passage where
  slot : Slot
  rendering : String
  rest : String
  recorded : Option Interpolation

def Passage.text (x : Passage) : String := x.rendering ++ x.rest

def textOf (css : String) (passages : List Passage) : String :=
  css ++ String.join (passages.map Passage.text)

def records (passages : List Passage) : List Interpolation := passages.filterMap (·.recorded)

theorem textOf_cons (css : String) (x : Passage) (passages : List Passage) :
    textOf css (x :: passages) = textOf (css ++ x.text) passages := by
  rw [textOf, textOf, List.map_cons, String.join_cons, String.append_assoc]

/-- How an expression comes into a style sheet text, and what it makes of the processor. -/
inductive Renders (values : List (Nat × Value)) (css : String) (p : Processor) :
    Passage → Processor → Prop
  | varies {slot : Slot} {source unit rest id : String} {q : Processor}
      (hvaries : slot.varies values = true) (hcode : slot.1.expr.code? = some source)
      (hcut : UnitCut slot.1.text unit rest)
      (hid : p.addInterpolation (.arrow [] slot.1.expr) css source unit = (id, q)) :
      Renders values css p
        ⟨slot, "var(--" ++ id ++ ")", rest, some ⟨id, .arrow [] slot.1.expr, source, unit⟩⟩ q
  | fixed {slot : Slot} {value : Value} {text : String} (hvaries : slot.varies values = false)
      (hvalue : values.lookup slot.2 = some value)
      (htext : Processor.valueText value slot.1 = .ok text) :
      Renders values css p ⟨slot, text, slot.1.text, none⟩ p

inductive RendersAll (values : List (Nat × Value)) :
    String → Processor → List Passage → Processor → Prop
  | nil {css : String} {p : Processor} : RendersAll values css p [] p
  | cons {css : String} {p q r : Processor} {x : Passage} {passages : List Passage}
      (hone : Renders values css p x q) (hrest : RendersAll values (css ++ x.text) q passages r) :
      RendersAll values css p (x :: passages) r

/-- The calls that record the variables of passages, each with the text before it. -/
def requests (naming : VariableNaming) : String → List Passage → List Call
  | _, [] => []
  | css, x :: passages =>
    (x.recorded.map fun i => ⟨naming, .interpolation i.node css i.source i.unit⟩).toList ++
      requests naming (css ++ x.text) passages

variable {values : List (Nat × Value)} {css text : String} {p q r : Processor} {x : Passage}
  {passages : List Passage} {naming : VariableNaming}

theorem requests_append (before after : List Passage) :
    requests naming css (before ++ after) =
      requests naming css before ++ requests naming (textOf css before) after := by
  induction before generalizing css with
  | nil => simp [requests, textOf]
  | cons x before ih => rw [List.cons_append, requests, requests, ih, textOf_cons, List.append_assoc]

theorem RendersAll.split {before after : List Passage}
    (h : RendersAll values css p (before ++ after) r) :
    ∃ q, RendersAll values css p before q ∧ RendersAll values (textOf css before) q after r := by
  induction before generalizing css p with
  | nil => exact ⟨p, .nil, by simpa [textOf] using h⟩
  | cons x before ih =>
      cases h with
      | cons hone hrest =>
          obtain ⟨q, hbefore, hafter⟩ := ih hrest
          exact ⟨q, .cons hone hbefore, by rwa [textOf_cons]⟩

namespace Processor

theorem addInterpolation_cases {node : Node} {source unit id : String}
    (h : p.addInterpolation node css source unit = (id, q)) :
    p.variableId source unit css = (id, { p with issued := q.issued }) ∧
      q = { p with
        issued := q.issued, interpolations := p.interpolations ++ [⟨id, node, source, unit⟩] } := by
  obtain ⟨rfl, rfl⟩ := Prod.mk.inj h
  exact ⟨rfl, rfl⟩

theorem perform_interpolation {node : Node} {source unit id : String}
    (h : p.addInterpolation node css source unit = (id, q)) :
    p.perform ⟨p.options.variableNaming, .interpolation node css source unit⟩ = (.id id, q) := by
  have hsame : p.perform ⟨p.options.variableNaming, .interpolation node css source unit⟩ =
      (.id (p.addInterpolation node css source unit).1, (p.addInterpolation node css source unit).2) := rfl
  rw [hsame, h]

end Processor

theorem Renders.same (h : Renders values css p x q) :
    q = { p with issued := q.issued, interpolations := q.interpolations } := by
  cases h with
  | varies hvaries hcode hcut hid => rw [(Processor.addInterpolation_cases hid).2]
  | fixed => rfl

theorem RendersAll.same (h : RendersAll values css p passages q) :
    q = { p with issued := q.issued, interpolations := q.interpolations } := by
  induction h with
  | nil => rfl
  | cons hone hrest ih => rw [ih, hone.same]

theorem Renders.options_eq (h : Renders values css p x q) : q.options = p.options := by
  rw [h.same]

theorem RendersAll.options_eq (h : RendersAll values css p passages q) : q.options = p.options := by
  rw [h.same]

theorem records_cons (x : Passage) (passages : List Passage) :
    records (x :: passages) = x.recorded.toList ++ records passages := by
  rw [records, records, List.filterMap_cons]
  cases x.recorded <;> rfl

theorem Renders.interpolations_eq (h : Renders values css p x q) :
    q.interpolations = p.interpolations ++ x.recorded.toList := by
  cases h with
  | varies hvaries hcode hcut hid =>
      rw [(Processor.addInterpolation_cases hid).2]
      rfl
  | fixed => exact (List.append_nil _).symm

theorem RendersAll.interpolations_eq (h : RendersAll values css p passages q) :
    q.interpolations = p.interpolations ++ records passages := by
  induction h with
  | nil => exact (List.append_nil _).symm
  | cons hone hrest ih => rw [ih, hone.interpolations_eq, List.append_assoc, records_cons]

/-- Rendering does what the calls do that record the variables. -/
theorem RendersAll.performAll_eq (h : RendersAll values css p passages q) :
    p.performAll (requests p.options.variableNaming css passages) =
      ((records passages).map fun i => Reply.id i.id, q) := by
  induction h with
  | nil => rfl
  | @cons css p q r x passages hone hrest ih =>
      rw [hone.options_eq] at ih
      cases hone with
      | varies hvaries hcode hcut hid =>
          simp only [requests, Option.map_some, Option.toList_some, List.singleton_append,
            Processor.performAll, Processor.perform_interpolation hid, ih]
          rfl
      | fixed => simpa [requests, records] using ih

theorem fixed_of_fixedValue? {index : Nat} {value : Value} (hole : TemplateHole)
    (h : Processor.fixedValue? values index = some value) :
    Slot.varies values (hole, index) = false ∧ values.lookup index = some value := by
  refine ⟨?_, Processor.lookup_of_fixedValue? h⟩
  cases hvaries : Slot.varies values (hole, index) with
  | false => rfl
  | true =>
      have hnone : Processor.fixedValue? values index = none := fixedValue?_eq_none_iff.2 hvaries
      simp [hnone] at h

variable {hole : TemplateHole} {index : Nat} {failure : Failure}

theorem exists_renders (h : p.buildHole values css hole index = (.ok text, q)) :
    ∃ x : Passage, x.slot = (hole, index) ∧ x.text = text ∧ Renders values css p x q := by
  simp only [Processor.buildHole] at h
  split at h
  · simp at h
  rename_i source hcode
  split at h
  · rename_i value hfixed
    obtain ⟨hvaries, hvalue⟩ := fixed_of_fixedValue? hole hfixed
    cases htext : Processor.valueText value hole with
    | error failure => simp [htext, Except.map] at h
    | ok rendering =>
        obtain ⟨rfl, rfl⟩ : rendering ++ hole.text = text ∧ p = q := by
          simpa [htext, Except.map] using h
        exact ⟨⟨(hole, index), rendering, hole.text, none⟩, rfl, rfl, .fixed hvaries hvalue htext⟩
  · rename_i hnone
    have hvaries : Slot.varies values (hole, index) = true := fixedValue?_eq_none_iff.1 hnone
    obtain ⟨htext, rfl⟩ := Prod.mk.inj h
    obtain rfl := Except.ok.inj htext
    exact ⟨_, rfl, rfl, .varies hvaries hcode hole.unitCut rfl⟩

theorem eq_of_buildHole_error (h : p.buildHole values css hole index = (.error failure, q)) :
    q = p := by
  simp only [Processor.buildHole] at h
  split at h
  · exact (Prod.mk.inj h).2.symm
  split at h
  · exact (Prod.mk.inj h).2.symm
  · simp at h

theorem exists_rendersAll {holes : List TemplateHole}
    (h : Processor.buildHoles values holes index css p = (.ok text, q)) :
    ∃ passages, passages.map Passage.slot = holes.zipIdx index ∧ text = textOf css passages ∧
      RendersAll values css p passages q := by
  induction holes generalizing index css p with
  | nil =>
      obtain ⟨rfl, rfl⟩ : css = text ∧ p = q := by simpa [Processor.buildHoles] using h
      exact ⟨[], rfl, by simp [textOf], .nil⟩
  | cons hole holes ih =>
      rw [Processor.buildHoles] at h
      split at h
      · rename_i rendered p' hone
        obtain ⟨x, hslot, rfl, hrenders⟩ := exists_renders hone
        obtain ⟨passages, hslots, rfl, hrest⟩ := ih h
        refine ⟨x :: passages, ?_, (textOf_cons css x passages).symm, .cons hrenders hrest⟩
        rw [List.map_cons, hslot, hslots, List.zipIdx_cons]
      · simp at h

/-- The expressions before the first obstacle are rendered, and nothing comes of the others. -/
theorem exists_rendersAll_of_error {holes : List TemplateHole}
    (h : Processor.buildHoles values holes index css p = (.error failure, q)) :
    ∃ passages slot after, holes.zipIdx index = passages.map Passage.slot ++ slot :: after ∧
      RendersAll values css p passages q ∧ Processor.Obstacle values slot.1 slot.2 failure := by
  induction holes generalizing index css p with
  | nil => simp [Processor.buildHoles] at h
  | cons hole holes ih =>
      rw [Processor.buildHoles] at h
      split at h
      · rename_i rendered p' hone
        obtain ⟨x, hslot, rfl, hrenders⟩ := exists_renders hone
        obtain ⟨passages, slot, after, hslots, hrest, hobstacle⟩ := ih h
        refine ⟨x :: passages, slot, after, ?_, .cons hrenders hrest, hobstacle⟩
        rw [List.map_cons, hslot, List.zipIdx_cons, hslots, List.cons_append]
      · rename_i failure' p' hone
        obtain ⟨hfailure, rfl⟩ := Prod.mk.inj h
        obtain rfl := Except.error.inj hfailure
        have hobstacle := Processor.buildHole_eq_error_iff.1 (congrArg Prod.fst hone)
        refine ⟨[], (hole, index), holes.zipIdx (index + 1), rfl, ?_, hobstacle⟩
        rw [eq_of_buildHole_error hone]
        exact .nil

namespace Processor

def bookOn (p : Processor) (passages : List Passage) : Book :=
  (p.book (requests p.options.variableNaming p.template.first passages)).2

/-- The passages of a processor that is built. -/
structure Rendering (p q : Processor) (values : List (Nat × Value)) (passages : List Passage) :
    Prop where
  slots : passages.map Passage.slot = p.template.holes.zipIdx
  text : q.cssText = some (textOf p.template.first passages)
  interpolations : q.interpolations = records passages
  issued : q.issued = (p.bookOn passages).issued
  fixed : ∀ x ∈ passages, x.slot.varies values = false →
    x.recorded = none ∧ x.rest = x.slot.1.text ∧
      ∃ value, values.lookup x.slot.2 = some value ∧ valueText value x.slot.1 = .ok x.rendering
  varying : ∀ before x after, passages = before ++ x :: after → x.slot.varies values = true →
    ∃ i, x.recorded = some i ∧ x.slot.1.expr.code? = some i.source ∧
      i.node = .arrow [] x.slot.1.expr ∧ x.rendering = "var(--" ++ i.id ++ ")" ∧
      UnitCut x.slot.1.text i.unit x.rest ∧
      Served p.options.variableNaming
        (p.context i.source i.unit (textOf p.template.first before)) (p.bookOn before) i.id
        (p.bookOn (before ++ [x]))

theorem Rendering.of_fixed (h : RendersAll values css p passages q) (hx : x ∈ passages)
    (hvaries : x.slot.varies values = false) :
    x.recorded = none ∧ x.rest = x.slot.1.text ∧
      ∃ value, values.lookup x.slot.2 = some value ∧ valueText value x.slot.1 = .ok x.rendering := by
  obtain ⟨before, after, rfl⟩ := List.append_of_mem hx
  obtain ⟨p', -, hafter⟩ := h.split
  cases hafter with
  | cons hone hrest =>
      cases hone with
      | varies hvaries' => simp [hvaries'] at hvaries
      | fixed _ hvalue htext => exact ⟨rfl, rfl, _, hvalue, htext⟩

theorem Rendering.of_varying {before after : List Passage} (hnew : p.issued = {})
    (h : RendersAll values p.template.first p (before ++ x :: after) q)
    (hvaries : x.slot.varies values = true) :
    ∃ i, x.recorded = some i ∧ x.slot.1.expr.code? = some i.source ∧
      i.node = .arrow [] x.slot.1.expr ∧ x.rendering = "var(--" ++ i.id ++ ")" ∧
      UnitCut x.slot.1.text i.unit x.rest ∧
      Served p.options.variableNaming
        (p.context i.source i.unit (textOf p.template.first before)) (p.bookOn before) i.id
        (p.bookOn (before ++ [x])) := by
  obtain ⟨p', hbefore, hafter⟩ := h.split
  cases hafter with
  | cons hone hrest =>
      cases hone with
      | fixed hvaries' => simp [hvaries'] at hvaries
      | @varies slot source unit rest id q' _ hcode hcut hid =>
          refine ⟨_, rfl, hcode, rfl, rfl, hcut, ?_⟩
          let call : Call := ⟨p.options.variableNaming,
            .interpolation (.arrow [] slot.1.expr) (textOf p.template.first before) source unit⟩
          have hcalls := hbefore.performAll_eq
          have hreply : (p'.perform call).1 = .id id := by
            have hperform := perform_interpolation hid
            rw [hbefore.options_eq] at hperform
            exact congrArg Prod.fst hperform
          have hkey : call.request.key? = some (source, unit) := rfl
          obtain ⟨id', hid', hserved⟩ :=
            (booked hnew (requests p.options.variableNaming p.template.first before)).served hkey
          rw [hcalls] at hid'
          obtain rfl := Reply.id.inj (hreply.symm.trans hid')
          rw [bookOn, bookOn, requests_append]
          exact hserved

end Processor

/-- Building loses no text: the style sheet text is made of the literal texts and of a rendering of
each expression, and no more is taken out than the units of the variables that are recorded. -/
theorem build_rendered {t : Host} {s : SiteContext} {params : List Param} {p q : Processor}
    {warnings : List Warning} {cache : ValueCache} {values : List (Nat × Value)} {rules : Rules}
    (hcreate : Processor.create t s params = (.ok p, warnings))
    (hbuild : p.build cache values = (.ok rules, q)) :
    ∃ passages, p.Rendering q values passages := by
  obtain ⟨node, operation, template, found, -, -, rfl⟩ :=
    Processor.create_eq_ok (congrArg Prod.fst hcreate)
  have hfresh := Processor.wrapping_fresh s node template found
  generalize Processor.wrapping s node template found = p at hbuild hfresh
  simp only [Processor.build, hfresh.cssText, Option.isSome_none, Bool.false_eq_true, if_false] at hbuild
  split at hbuild
  · simp at hbuild
  rename_i css r hholes
  obtain ⟨-, rfl⟩ := Prod.mk.inj hbuild
  obtain ⟨passages, hslots, rfl, hrenders⟩ := exists_rendersAll hholes
  refine ⟨passages, ?_⟩
  constructor
  case slots => exact hslots
  case text => rfl
  case interpolations =>
    have hinterpolations := hrenders.interpolations_eq
    rwa [hfresh.interpolations, List.nil_append] at hinterpolations
  case issued =>
    have hbooked := (Processor.booked hfresh.issued
      (requests p.options.variableNaming p.template.first passages)).issued
    rw [hrenders.performAll_eq] at hbooked
    exact hbooked.symm
  case fixed => exact fun x hx hvaries => Processor.Rendering.of_fixed hrenders hx hvaries
  case varying =>
    rintro before x after rfl hvaries
    exact Processor.Rendering.of_varying hfresh.issued hrenders hvaries

theorem eq_ok_of_toOption {ε α : Type} {result : Except ε α} {a : α}
    (h : result.toOption = some a) : result = .ok a := by
  cases result with
  | error e => simp [Except.toOption] at h
  | ok b => exact congrArg Except.ok (Option.some.inj h)

theorem exists_built {α : Type} {t : Host} {s : SiteContext} {params : List Param}
    {cache : ValueCache} {values : List (Nat × Value)} {view : Processor → α} {a : α}
    {Built : Processor → Processor → Prop}
    (hall : ∀ {p warnings rules q}, Processor.create t s params = (.ok p, warnings) →
      p.build cache values = (.ok rules, q) → Built p q)
    (h : ((Processor.create t s params).1.toOption.bind fun p =>
      (p.build cache values).1.toOption.map fun _ => view (p.build cache values).2) = some a) :
    ∃ p warnings rules q, Processor.create t s params = (.ok p, warnings) ∧
      p.build cache values = (.ok rules, q) ∧ view q = a ∧ Built p q := by
  obtain ⟨p, hp, hbuilt⟩ := Option.bind_eq_some_iff.1 h
  obtain ⟨rules, hrules, hview⟩ := Option.map_eq_some_iff.1 hbuilt
  have hcreate : Processor.create t s params = (.ok p, (Processor.create t s params).2) :=
    Prod.ext (eq_ok_of_toOption hp) rfl
  have hbuild : p.build cache values = (.ok rules, (p.build cache values).2) :=
    Prod.ext (eq_ok_of_toOption hrules) rfl
  exact ⟨p, _, rules, _, hcreate, hbuild, hview, hall hcreate hbuild⟩

def placedNames : Options where
  variableNaming := .custom fun c => .done ("v" ++ toString c.precedingCss.length)

def crowdedBox : List Param :=
  [.callee (.identifier "styled"), .member "div",
    .template ⟨"width: ", [⟨.raw "w", none, "px; margin: "⟩, ⟨.raw "h", none, ""⟩,
      ⟨.raw "w", none, "%; gap: "⟩, ⟨.raw "g", none, "pxx"⟩], none⟩]

theorem crowdedBox_rendered :
    ∃ p warnings rules q,
      Processor.create {} ⟨"Box", 0, placedNames, none, none⟩ crowdedBox = (.ok p, warnings) ∧
      p.build {} [(1, .string "4")] = (.ok rules, q) ∧
      (q.cssText, q.interpolations.map fun i => (i.id, i.source, i.unit)) =
        (some "width: var(--v7); margin: 4var(--v27); gap: var(--v44)pxx",
          [("v7", "w", "px"), ("v27", "w", "%"), ("v44", "g", "")]) ∧
      ∃ passages, p.Rendering q [(1, .string "4")] passages :=
  exists_built (fun hcreate hbuild => build_rendered hcreate hbuild) (by decide +kernel)

end CssExtract.Styled
