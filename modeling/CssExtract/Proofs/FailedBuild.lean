import CssExtract.Proofs.Rendering
import CssExtract.Proofs.Serializable

namespace CssExtract.Styled

open Eval Script

/-- The ids of a naming depend neither on the index nor on the place of a variable. -/
structure VariableNaming.Steady (naming : VariableNaming) : Prop where
  placeless (c : VariableContext) (css : String) :
    Variables.customId naming { c with precedingCss := css } = Variables.customId naming c
  numberless (c : VariableContext) (v w : Variables) (answer : String) :
    ((Variables.customId naming c).run v).1 = some answer → answer.isEmpty = false →
      (Variables.customId naming c).run w = (some answer, w)

theorem steady_default : VariableNaming.default.Steady where
  placeless _ _ := rfl
  numberless _ _ _ _ hanswer := by simp [Variables.customId] at hanswer

namespace Variables

variable {naming : VariableNaming} {c c' : VariableContext} {v w : Variables} {id id' : String}

theorem idFor_placeless (h : naming.Steady) (c : VariableContext) (css : String) :
    idFor naming { c with precedingCss := css } = idFor naming c := by
  simp only [idFor, h.placeless]

theorem idFor_of_lookup (h : v.ids.lookup (c.source, c.unit) = some id) :
    (idFor naming c).run v = (id, v) := by
  simp only [idFor]
  rw [run_get_bind, h]
  rfl

theorem idFor_of_answer {answer : String} (hnew : v.ids.lookup (c.source, c.unit) = none)
    (hanswer : (customId naming c).run v = (some answer, v)) (hgiven : answer.isEmpty = false) :
    (idFor naming c).run v = (cssIdentifier answer, v) := by
  simp only [idFor]
  rw [run_get_bind, hnew]
  simp only
  rw [run_bind_of_run hanswer, Option.filter_some, hgiven]
  rfl

inductive Assigned (naming : VariableNaming) (c : VariableContext) (v : Variables) : String → Prop
  | kept {id : String} (old : v.ids.lookup (c.source, c.unit) = some id) : Assigned naming c v id
  | named {answer : String} (new : v.ids.lookup (c.source, c.unit) = none)
      (always : ∀ w, (customId naming c).run w = (some answer, w)) (given : answer.isEmpty = false) :
      Assigned naming c v (cssIdentifier answer)

theorem Assigned.run (h : Assigned naming c v id) : (idFor naming c).run v = (id, v) := by
  cases h with
  | kept old => exact idFor_of_lookup old
  | named new always given => exact idFor_of_answer new (always v) given

theorem assigned_of_run (hsteady : naming.Steady) (h : (idFor naming c).run v = (id, w)) :
    Assigned naming c w id := by
  obtain ⟨id', b', hserved, -, hrun⟩ := run_idFor_served naming c ⟨v, []⟩
  obtain ⟨rfl, rfl⟩ := Prod.mk.inj (h.symm.trans hrun)
  cases hserved with
  | again old => exact .kept old
  | custom new answered given =>
      exact .named new (fun w => hsteady.numberless c v w _ answered given) given
  | default new empty =>
      apply Assigned.kept
      rw [List.lookup_append, new]
      simp

theorem Assigned.after (h : Assigned naming c v id)
    (hsame : (c'.source, c'.unit) = (c.source, c.unit) → customId naming c' = customId naming c)
    (hrun : (idFor naming c').run v = (id', w)) : Assigned naming c w id := by
  obtain ⟨_, b', hserved, -, hrun'⟩ := run_idFor_served naming c' ⟨v, []⟩
  obtain ⟨rfl, rfl⟩ := Prod.mk.inj (hrun.symm.trans hrun')
  cases hserved with
  | again => exact h
  | custom =>
      cases h with
      | kept old => exact .kept old
      | named new always given => exact .named new always given
  | default new' empty =>
      cases h with
      | kept old =>
          apply Assigned.kept
          rw [List.lookup_append, old, Option.some_or]
      | @named answer new always given =>
          -- the entry is one of another source or unit, since the naming has an id for this one
          have hkey : (c.source, c.unit) ≠ (c'.source, c'.unit) := by
            intro hkey
            rw [hsame hkey.symm, always, Option.filter_some, given] at empty
            simp at empty
          apply Assigned.named _ always given
          rw [List.lookup_append, new, List.lookup_cons, beq_eq_false_iff_ne.2 hkey]
          rfl

end Variables

variable {values values' : List (Nat × Value)} {css text source unit id id' : String} {node : Node}
  {p q : Processor} {x : Passage} {passages : List Passage} {cache : ValueCache}

namespace Processor

def HasId (p : Processor) (source unit id : String) : Prop :=
  Variables.Assigned p.options.variableNaming (p.context source unit "") p.issued id

theorem variableId_placeless (hsteady : p.options.variableNaming.Steady) (source unit css css' : String) :
    p.variableId source unit css = p.variableId source unit css' := by
  simp only [variableId]
  have hsame := Variables.idFor_placeless hsteady (p.context source unit css') css
  rw [← hsame]
  rfl

theorem HasId.variableId (hsteady : p.options.variableNaming.Steady) (h : p.HasId source unit id)
    (css : String) : p.variableId source unit css = (id, p) := by
  rw [variableId_placeless hsteady source unit css "", Processor.variableId, onVariables, h.run]

theorem hasId_of_variableId (hsteady : p.options.variableNaming.Steady)
    (h : p.variableId source unit css = (id, q)) : q.HasId source unit id := by
  rw [variableId_placeless hsteady source unit css ""] at h
  obtain ⟨rfl, rfl⟩ := Prod.mk.inj h
  exact Variables.assigned_of_run hsteady rfl

theorem HasId.after {source' unit' : String} (hsteady : p.options.variableNaming.Steady)
    (h : p.HasId source unit id) (hnext : p.variableId source' unit' css = (id', q)) :
    q.HasId source unit id := by
  rw [variableId_placeless hsteady source' unit' css ""] at hnext
  obtain ⟨rfl, rfl⟩ := Prod.mk.inj hnext
  apply Variables.Assigned.after h _ rfl
  intro hkey
  obtain ⟨rfl, rfl⟩ := Prod.mk.inj hkey
  rfl

theorem addInterpolation_placeless (hsteady : p.options.variableNaming.Steady) (node : Node)
    (source unit css css' : String) :
    p.addInterpolation node css source unit = p.addInterpolation node css' source unit := by
  simp only [addInterpolation]
  rw [variableId_placeless hsteady source unit css css']

theorem HasId.addInterpolation (hsteady : p.options.variableNaming.Steady)
    (h : p.HasId source unit id) (node : Node) (css : String) (l : List Interpolation) :
    Processor.addInterpolation { p with interpolations := l } node css source unit =
      (id, { p with interpolations := l ++ [⟨id, node, source, unit⟩] }) := by
  have hsame : Processor.variableId { p with interpolations := l } source unit css =
      ((p.variableId source unit css).1,
        { (p.variableId source unit css).2 with interpolations := l }) := rfl
  rw [Processor.addInterpolation, hsame, h.variableId hsteady]

end Processor

theorem Renders.hasId {i : Interpolation} (hsteady : p.options.variableNaming.Steady)
    (hone : Renders values css p x q) (hi : x.recorded = some i) : q.HasId i.source i.unit i.id := by
  cases hone with
  | varies hvaries hcode hcut hid =>
      obtain rfl := Option.some.inj hi
      obtain ⟨hvariable, hq⟩ := Processor.addInterpolation_cases hid
      have hhas := Processor.hasId_of_variableId hsteady hvariable
      rw [hq]
      exact hhas
  | fixed => simp at hi

theorem Renders.hasId_of_hasId (hsteady : p.options.variableNaming.Steady)
    (hone : Renders values css p x q) (h : p.HasId source unit id) : q.HasId source unit id := by
  cases hone with
  | varies hvaries hcode hcut hid =>
      obtain ⟨hvariable, hq⟩ := Processor.addInterpolation_cases hid
      have hafter := h.after hsteady hvariable
      rw [hq]
      exact hafter
  | fixed => exact h

theorem RendersAll.hasId_of_hasId (hsteady : p.options.variableNaming.Steady)
    (hall : RendersAll values css p passages q) (h : p.HasId source unit id) :
    q.HasId source unit id := by
  induction hall with
  | nil => exact h
  | cons hone hrest ih => exact ih (hone.options_eq ▸ hsteady) (hone.hasId_of_hasId hsteady h)

namespace Processor

variable {hole : TemplateHole} {index : Nat} {holes : List TemplateHole}

theorem buildHole_eq_of_varies {unit rest source : String} (hcode : hole.expr.code? = some source)
    (hvaries : Slot.varies values (hole, index) = true) (hcut : UnitCut hole.text unit rest)
    (hid : p.addInterpolation (.arrow [] hole.expr) css source unit = (id, q)) :
    p.buildHole values css hole index = (.ok ("var(--" ++ id ++ ")" ++ rest), q) := by
  have hfixed : fixedValue? values index = none := fixedValue?_eq_none_iff.2 hvaries
  obtain ⟨rfl, rfl⟩ := hcut.unique
  simp only [TemplateHole.unit] at hid
  simp only [buildHole, hcode, hfixed, hid]
  rfl

theorem exists_buildHole_of_fixed (hvaries : Slot.varies values (hole, index) = false) :
    ∃ result, ∀ (p : Processor) (css : String),
      p.buildHole values css hole index = (result, p) := by
  obtain ⟨value, hvalue⟩ : ∃ value, fixedValue? values index = some value := by
    apply Option.ne_none_iff_exists'.1
    intro hnone
    have hvaries' : Slot.varies values (hole, index) = true := fixedValue?_eq_none_iff.1 hnone
    simp [hvaries'] at hvaries
  cases hcode : hole.expr.code? with
  | none => exact ⟨.error .notCode, fun p css => by simp only [buildHole, hcode]⟩
  | some source =>
      refine ⟨(valueText value hole).map (· ++ hole.text), fun p css => ?_⟩
      simp only [buildHole, hcode, hvalue]

theorem exists_frame_buildHole (p : Processor) (values : List (Nat × Value)) (css : String)
    (hole : TemplateHole) (index : Nat) : ∃ new : List Interpolation,
      (p.buildHole values css hole index).2.interpolations = p.interpolations ++ new ∧
      ∀ l, Processor.buildHole { p with interpolations := l } values css hole index =
        ((p.buildHole values css hole index).1,
          { (p.buildHole values css hole index).2 with interpolations := l ++ new }) := by
  cases hvaries : Slot.varies values (hole, index) with
  | false =>
      obtain ⟨result, hresult⟩ := exists_buildHole_of_fixed hvaries
      refine ⟨[], by simp [hresult], fun l => by simp [hresult]⟩
  | true =>
      have hfixed : fixedValue? values index = none := fixedValue?_eq_none_iff.2 hvaries
      cases hcode : hole.expr.code? with
      | none => exact ⟨[], by simp [buildHole, hcode], fun l => by simp [buildHole, hcode]⟩
      | some source =>
          simp only [buildHole, hcode, hfixed]
          exact ⟨_, rfl, fun l => rfl⟩

theorem exists_frame (p : Processor) (values : List (Nat × Value)) (holes : List TemplateHole)
    (index : Nat) (css : String) : ∃ new : List Interpolation,
      (buildHoles values holes index css p).2.interpolations = p.interpolations ++ new ∧
      ∀ l, buildHoles values holes index css { p with interpolations := l } =
        ((buildHoles values holes index css p).1,
          { (buildHoles values holes index css p).2 with interpolations := l ++ new }) := by
  induction holes generalizing index css p with
  | nil => exact ⟨[], by simp [buildHoles], fun l => by simp [buildHoles]⟩
  | cons hole holes ih =>
      obtain ⟨new, hnew, hframe⟩ := exists_frame_buildHole p values css hole index
      generalize hone : p.buildHole values css hole index = built at hnew hframe
      obtain ⟨result, q⟩ := built
      cases result with
      | error failure =>
          refine ⟨new, by rw [buildHoles, hone]; exact hnew, fun l => ?_⟩
          rw [buildHoles, buildHoles, hframe l, hone]
      | ok text =>
          obtain ⟨rest, hrest, hall⟩ := ih q (index + 1) (css ++ text)
          refine ⟨new ++ rest, ?_, fun l => ?_⟩
          · rw [buildHoles, hone]
            exact hrest.trans (by rw [hnew, List.append_assoc])
          · rw [buildHoles, buildHoles, hframe l, hone]
            exact (hall (l ++ new)).trans (by rw [List.append_assoc])

/-- A run over the same expressions from a processor with records of its own. It gives the same
text, and once it does it adds the same records. -/
structure Repeats (p : Processor) (left l : List Interpolation)
    (first again : Except Failure String × Processor) : Prop where
  result : again.1 = first.1
  state : ∀ text, first.1 = .ok text → ∃ new, left <+: new ∧
    first.2.interpolations = p.interpolations ++ new ∧
      again.2 = { first.2 with interpolations := l ++ new }

theorem Repeats.of_frame (p : Processor) (values : List (Nat × Value)) (holes : List TemplateHole)
    (index : Nat) (css : String) (l : List Interpolation) :
    Repeats p [] l (buildHoles values holes index css p)
      (buildHoles values holes index css { p with interpolations := l }) := by
  obtain ⟨new, hnew, hframe⟩ := exists_frame p values holes index css
  rw [hframe l]
  exact ⟨rfl, fun _ _ => ⟨new, List.nil_prefix, hnew, rfl⟩⟩

theorem Repeats.cons {left l new : List Interpolation} {first again : Except Failure String × Processor}
    (h : Repeats q left (l ++ new) first again) (hnew : q.interpolations = p.interpolations ++ new) :
    Repeats p (new ++ left) l first again where
  result := h.result
  state text htext := by
    obtain ⟨rest, hfront, hfirst, hagain⟩ := h.state text htext
    refine ⟨new ++ rest, (List.prefix_append_right_inj new).2 hfront, ?_, ?_⟩
    · rw [hfirst, hnew, List.append_assoc]
    · rw [hagain, List.append_assoc]

end Processor

theorem Renders.again {hole : TemplateHole} {index : Nat} {r : Processor}
    (hsteady : p.options.variableNaming.Steady) (hone : Renders values css p x q)
    (hslot : x.slot = (hole, index)) (hsame : x.slot.varies values' = x.slot.varies values)
    (hr : r.options.variableNaming.Steady)
    (hhas : ∀ i, x.recorded = some i → r.HasId i.source i.unit i.id) (css' : String)
    (l : List Interpolation) :
    ∃ result, p.buildHole values' css' hole index = (result, q) ∧
      Processor.buildHole { r with interpolations := l } values' css' hole index =
        (result, { r with interpolations := l ++ x.recorded.toList }) := by
  cases hone with
  | @varies slot source unit rest id q hvaries hcode hcut hid =>
      subst hslot
      have hvaries' : Slot.varies values' (hole, index) = true := hsame.trans hvaries
      have hid' : p.addInterpolation (.arrow [] hole.expr) css' source unit = (id, q) := by
        rw [Processor.addInterpolation_placeless hsteady _ source unit css' css, hid]
      have hagain := (hhas _ rfl).addInterpolation hr (.arrow [] hole.expr) css' l
      exact ⟨_, Processor.buildHole_eq_of_varies hcode hvaries' hcut hid',
        Processor.buildHole_eq_of_varies hcode hvaries' hcut hagain⟩
  | @fixed slot value text hvaries =>
      subst hslot
      obtain ⟨result, hresult⟩ := Processor.exists_buildHole_of_fixed (hsame.trans hvaries)
      refine ⟨result, hresult p css', ?_⟩
      rw [hresult, Option.toList_none, List.append_nil]

theorem RendersAll.repeats {holes : List TemplateHole} {index : Nat} {after : List Slot}
    (hsteady : p.options.variableNaming.Steady) (h : RendersAll values css p passages q)
    (hslots : holes.zipIdx index = passages.map Passage.slot ++ after)
    (hsame : ∀ x ∈ passages, x.slot.varies values' = x.slot.varies values) (css' : String)
    (l : List Interpolation) :
    Processor.Repeats p (records passages) l (Processor.buildHoles values' holes index css' p)
      (Processor.buildHoles values' holes index css' { q with interpolations := l }) := by
  induction h generalizing holes index css' l with
  | nil => exact .of_frame ..
  | @cons css p p' q x passages hone hrest ih =>
      obtain ⟨hole, holes, rfl⟩ : ∃ hole holes', holes = hole :: holes' := by
        cases holes with
        | nil => simp at hslots
        | cons hole holes => exact ⟨hole, holes, rfl⟩
      obtain ⟨hslot, hslots⟩ := List.cons.inj hslots
      obtain ⟨hhere, hsame⟩ := List.forall_mem_cons.1 hsame
      have hsteady' : p'.options.variableNaming.Steady := hone.options_eq ▸ hsteady
      have hq : q.options.variableNaming.Steady := hrest.options_eq ▸ hsteady'
      -- the id that is given here is still there when the run is over
      have hhas (i : Interpolation) (hi : x.recorded = some i) : q.HasId i.source i.unit i.id :=
        hrest.hasId_of_hasId hsteady' (hone.hasId hsteady hi)
      obtain ⟨result, hfirst, hagain⟩ := hone.again hsteady hslot.symm hhere hq hhas css' l
      rw [Processor.buildHoles, Processor.buildHoles, hfirst, hagain, records_cons]
      cases result with
      | error failure =>
          refine ⟨rfl, ?_⟩
          intro text htext
          cases htext
      | ok text => exact (ih hsteady' hslots hsame (css' ++ text) _).cons hone.interpolations_eq

theorem settings_repeated {left new : List Interpolation} (old : List Interpolation)
    (hfront : left <+: new) : settings (old ++ left ++ new) = settings (old ++ new) := by
  obtain ⟨rest, rfl⟩ := hfront
  apply Entries.eq_of_get?_eq
  · have hleft : (left.map (·.id)).removeAll ((old ++ left).map (·.id)) = [] := by
      rw [List.removeAll, List.filter_eq_nil_iff, List.map_append]
      intro id hid
      simp [hid]
    have hkeys : ((left ++ rest).map (·.id)).removeAll ((old ++ left).map (·.id)) =
        (rest.map (·.id)).removeAll ((old ++ left).map (·.id)) := by
      rw [List.map_append]
      exact (List.filter_append _ _).trans (by rw [← List.removeAll, hleft]; rfl)
    rw [keys_settings, keys_settings]
    calc ((old ++ left ++ (left ++ rest)).map (·.id)).eraseDups
      _ = ((old ++ left).map (·.id)).eraseDups ++
            (((left ++ rest).map (·.id)).removeAll ((old ++ left).map (·.id))).eraseDups := by
          rw [List.map_append, List.eraseDups_append]
      _ = ((old ++ left).map (·.id)).eraseDups ++
            ((rest.map (·.id)).removeAll ((old ++ left).map (·.id))).eraseDups := by rw [hkeys]
      _ = ((old ++ (left ++ rest)).map (·.id)).eraseDups := by
          rw [← List.eraseDups_append, ← List.map_append, List.append_assoc]
  · exact nodup_keys_settings _
  · intro id
    simp [get?_settings, List.getLast?_append, Option.or_assoc]

theorem Renders.records_eq (h : Renders values css p x q) :
    x.recorded.map (fun i => (i.node, i.source, i.unit)) =
      if x.slot.varies values then
        some (.arrow [] x.slot.1.expr, x.slot.1.expr.code, x.slot.1.unit) else none := by
  cases h with
  | @varies slot source unit rest id q hvaries hcode hcut hid =>
      obtain ⟨-, hsource⟩ : slot.1.expr.isCode = true ∧ slot.1.expr.code = source := by
        simpa [Node.code?] using hcode
      rw [if_pos hvaries, hsource, ← hcut.unique.1]
      rfl
  | fixed hvaries =>
      rw [if_neg (by simp [hvaries])]
      rfl

theorem RendersAll.eq_of_fixed (h : RendersAll values css p passages q)
    (hfixed : ∀ x ∈ passages, x.slot.varies values = false) : q = p := by
  induction h with
  | nil => rfl
  | cons hone hrest ih =>
      obtain ⟨hhere, hfixed⟩ := List.forall_mem_cons.1 hfixed
      rw [ih hfixed]
      cases hone with
      | varies hvaries => simp [hvaries] at hhere
      | fixed => rfl

theorem RendersAll.records_eq (h : RendersAll values css p passages q) :
    (records passages).map (fun i => (i.node, i.source, i.unit)) =
      (varying values (passages.map Passage.slot)).map fun slot =>
        (.arrow [] slot.1.expr, slot.1.expr.code, slot.1.unit) := by
  induction h with
  | nil => rfl
  | @cons css p q r x passages hone hrest ih =>
      have hrecorded := hone.records_eq
      rw [List.map_cons, varying_cons]
      split_ifs at hrecorded ⊢ with hvaries
      · obtain ⟨i, hi, hhere⟩ := Option.map_eq_some_iff.1 hrecorded
        rw [records_cons, hi, Option.toList_some, List.singleton_append, List.map_cons, hhere, ih]
        rfl
      · rw [records_cons, Option.map_eq_none_iff.1 hrecorded, Option.toList_none, List.nil_append, ih]

namespace Processor

/-- A processor after a build that failed goes on like the one before, but for what is recorded. -/
structure Recovers (p q : Processor) (left : List Interpolation) (cache : ValueCache)
    (values : List (Nat × Value)) : Prop where
  result : (q.build cache values).1 = (p.build cache values).1
  state : ∀ rules, (p.build cache values).1 = .ok rules → ∃ new, left <+: new ∧
    (p.build cache values).2.interpolations = p.interpolations ++ new ∧
      (q.build cache values).2 =
        { (p.build cache values).2 with interpolations := p.interpolations ++ left ++ new }
  vars : ∀ rules, (p.build cache values).1 = .ok rules →
    (q.build cache values).2.vars = (p.build cache values).2.vars

/-- What is left of a build that comes to a value that no style sheet can hold. -/
structure Interrupted (p q : Processor) (values : List (Nat × Value)) (error : StyledError)
    (passages : List Passage) (slot : Slot) : Prop where
  slots : ∃ after, p.template.holes.zipIdx = passages.map Passage.slot ++ slot :: after
  rejected : Obstacle values slot.1 slot.2 (.styled error)
  rendered : RendersAll values p.template.first p passages q
  cssText : q.cssText = none
  interpolations : q.interpolations = p.interpolations ++ records passages
  recorded : (records passages).map (fun i => (i.node, i.source, i.unit)) =
    (varying values (passages.map Passage.slot)).map fun slot =>
      (.arrow [] slot.1.expr, slot.1.expr.code, slot.1.unit)
  performed : p.performAll (requests p.options.variableNaming p.template.first passages) =
    ((records passages).map fun i => Reply.id i.id, q)
  untouched : (∀ x ∈ passages, x.slot.varies values = false) → q = p
  recovers : p.options.variableNaming.Steady → ∀ (cache : ValueCache) (values' : List (Nat × Value)),
    (∀ x ∈ passages, x.slot.varies values' = x.slot.varies values) →
      p.Recovers q (records passages) cache values'

/-- What is left of a build that ends with the whole text, but without a rule for it. -/
structure Unextracted (p q : Processor) (cache : ValueCache) (values : List (Nat × Value))
    (error : StyledError) (passages : List Passage) : Prop where
  slots : p.template.holes.zipIdx = passages.map Passage.slot
  rendered : RendersAll values p.template.first p passages { q with cssText := none }
  cssText : q.cssText = some (textOf p.template.first passages)
  interpolations : q.interpolations = p.interpolations ++ records passages
  recorded : (records passages).map (fun i => (i.node, i.source, i.unit)) =
    (varying values p.template.holes.zipIdx).map fun slot =>
      (.arrow [] slot.1.expr, slot.1.expr.code, slot.1.unit)
  unextracted : p.extractRules cache (textOf p.template.first passages) p.location =
    .error (.styled error)
  final : ∀ cache' values', q.build cache' values' = (.error (.alreadyBuilt p.title), q)

theorem build_of_new (hnew : p.cssText = none) :
    p.build cache values =
      match buildHoles values p.template.holes 0 p.template.first p with
      | (.error failure, q) => (.error failure, q)
      | (.ok css, q) => (q.extractRules cache css q.location, { q with cssText := some css }) := by
  simp only [build, hnew, Option.isSome_none, Bool.false_eq_true, if_false]
  rfl

theorem vars_eq (p : Processor) : p.vars = settings p.interpolations := rfl

theorem Repeats.recovers {left : List Interpolation} (hnew : p.cssText = none) (hnew' : q.cssText = none)
    (htemplate : q.template = p.template) (hleft : q.interpolations = p.interpolations ++ left)
    (h : Repeats p left q.interpolations (buildHoles values p.template.holes 0 p.template.first p)
      (buildHoles values p.template.holes 0 p.template.first q)) :
    p.Recovers q left cache values := by
  have hfirst : p.build cache values = _ := build_of_new hnew
  have hagain : q.build cache values = _ := build_of_new hnew'
  rw [htemplate] at hagain
  generalize buildHoles values p.template.holes 0 p.template.first p = first at h hfirst
  generalize buildHoles values p.template.holes 0 p.template.first q = again at h hagain
  obtain ⟨result, p'⟩ := first
  obtain ⟨result', q'⟩ := again
  obtain rfl : result' = result := h.result
  cases result' with
  | error failure =>
      constructor
      case result => rw [hfirst, hagain]
      all_goals
        intro rules hrules
        simp [hfirst] at hrules
  | ok css =>
      obtain ⟨new, hfront, hinterpolations, hq'⟩ := h.state css rfl
      simp only at hinterpolations hq'
      subst hq'
      constructor
      case result =>
        rw [hfirst, hagain]
        rfl
      case state =>
        intro rules _
        refine ⟨new, hfront, ?_, ?_⟩
        · rw [hfirst]
          exact hinterpolations
        · rw [hfirst, hagain, hleft]
      case vars =>
        intro rules _
        rw [vars_eq, vars_eq, hfirst, hagain, hinterpolations, hleft]
        exact settings_repeated p.interpolations hfront

theorem interrupted {slot : Slot} {after : List Slot} {error : StyledError}
    (hnew : p.cssText = none)
    (hslots : p.template.holes.zipIdx = passages.map Passage.slot ++ slot :: after)
    (hrejected : Obstacle values slot.1 slot.2 (.styled error))
    (hrendered : RendersAll values p.template.first p passages q) :
    p.Interrupted q values error passages slot := by
  have hnew' : q.cssText = none := by
    rw [hrendered.same]
    exact hnew
  have htemplate : q.template = p.template := by rw [hrendered.same]
  constructor
  case slots => exact ⟨after, hslots⟩
  case rejected => exact hrejected
  case rendered => exact hrendered
  case cssText => exact hnew'
  case interpolations => exact hrendered.interpolations_eq
  case recorded => exact hrendered.records_eq
  case performed => exact hrendered.performAll_eq
  case untouched => exact hrendered.eq_of_fixed
  case recovers =>
    intro hsteady cache values' hsame
    apply Repeats.recovers hnew hnew' htemplate hrendered.interpolations_eq
    exact hrendered.repeats hsteady hslots hsame p.template.first q.interpolations

theorem unextracted {error : StyledError} (hnew : p.cssText = none)
    (hslots : passages.map Passage.slot = p.template.holes.zipIdx)
    (hrendered : RendersAll values p.template.first p passages q)
    (hextract : q.extractRules cache (textOf p.template.first passages) q.location =
      .error (.styled error)) :
    p.Unextracted { q with cssText := some (textOf p.template.first passages) } cache values error
      passages := by
  have hsame := hrendered.same
  have hnew' : q.cssText = none := by
    rw [hsame]
    exact hnew
  have htitle : q.title = p.title := by
    rw [hsame]
    rfl
  constructor
  case slots => exact hslots.symm
  case rendered =>
    rw [← hnew']
    exact hrendered
  case cssText => rfl
  case interpolations => exact hrendered.interpolations_eq
  case recorded => exact hslots ▸ hrendered.records_eq
  case unextracted =>
    rw [hsame] at hextract
    exact hextract
  case final =>
    intro cache' values'
    rw [← htitle]
    rfl

end Processor

/-- A build that fails over a value leaves the records of the variables before it. They change no
later build of a processor whose naming is steady, and without them there is no trace. A build that
fails over what a component extends is the last one. -/
theorem build_failed {error : StyledError}
    (hbuild : p.build cache values = (.error (.styled error), q)) :
    p.cssText = none ∧ ∃ passages, (∃ slot, p.Interrupted q values error passages slot) ∨
      p.Unextracted q cache values error passages := by
  have hnew : p.cssText = none := by
    cases htext : p.cssText with
    | none => rfl
    | some css => simp [Processor.build, htext] at hbuild
  refine ⟨hnew, ?_⟩
  rw [Processor.build_of_new hnew] at hbuild
  split at hbuild
  case h_1 failure q' hholes =>
    obtain ⟨hfailure, rfl⟩ := Prod.mk.inj hbuild
    obtain rfl := Except.error.inj hfailure
    obtain ⟨passages, slot, after, hslots, hrendered, hobstacle⟩ := exists_rendersAll_of_error hholes
    exact ⟨passages, .inl ⟨slot, Processor.interrupted hnew hslots hobstacle hrendered⟩⟩
  case h_2 css q' hholes =>
    obtain ⟨hextract, rfl⟩ := Prod.mk.inj hbuild
    obtain ⟨passages, hslots, rfl, hrendered⟩ := exists_rendersAll hholes
    exact ⟨passages, .inr (Processor.unextracted hnew hslots hrendered hextract)⟩

def namedSite (naming : VariableNaming) : SiteContext :=
  ⟨"Box", 0, { variableNaming := naming }, none, none⟩

def gappedBox (naming : VariableNaming) : Processor :=
  .wrapping (namedSite naming) (.identifier "styled")
    ⟨"width: ", [⟨.raw "w", none, "px; margin: "⟩, ⟨.raw "w", none, "px; gap: "⟩,
      ⟨.raw "g", none, ";"⟩], none⟩ (.tag "div", [])

def loopedBox : Processor :=
  .wrapping (namedSite .default) (.identifier "styled") ⟨"color: red;", [], none⟩
    (.reference "Loop" "Loop" false, [])

def loopCache : ValueCache where
  graph := ⟨#[.styled "loop" (.container 0)]⟩
  points := [("Loop", .container 0)]

def undefinedGap : List (Nat × Value) := [(2, .undefined)]

def knownWidth : List (Nat × Value) := [(0, .string "1px"), (1, .string "1px")]

def firstNamed : VariableNaming :=
  .custom fun c => .done (if c.precedingCss = "width: " then "first" else "")

theorem gappedBox_failed :
    ∃ error q, (gappedBox .default).build {} undefinedGap = (.error (.styled error), q) ∧
      q.interpolations.map (fun i => (i.source, i.unit)) = [("w", "px"), ("w", "px")] ∧
      (gappedBox .default).options.variableNaming.Steady ∧ (gappedBox .default).cssText = none ∧
      ∃ passages, (∃ slot, (gappedBox .default).Interrupted q undefinedGap error passages slot) ∨
        (gappedBox .default).Unextracted q {} undefinedGap error passages := by
  obtain ⟨error, herror, -⟩ : ∃ error,
      ((gappedBox .default).build {} undefinedGap).1 = .error (.styled error) ∧
        error.code = "invalid-interpolation" :=
    exists_styledError (by decide +kernel)
  have hbuild : (gappedBox .default).build {} undefinedGap =
      (.error (.styled error), ((gappedBox .default).build {} undefinedGap).2) := Prod.ext herror rfl
  exact ⟨error, _, hbuild, by decide +kernel, steady_default, build_failed hbuild⟩

def Processor.after (p : Processor) (cache : ValueCache) (values : List (Nat × Value)) : Processor :=
  (p.build cache values).2

theorem failures_leave_traces :
    (∃ error, ((gappedBox .default).build {} undefinedGap).1 = .error (.styled error)) ∧
    ((gappedBox .default).after {} undefinedGap).interpolations.length ≠
      (gappedBox .default).interpolations.length ∧
    ((gappedBox .default).after {} undefinedGap).issued ≠ (gappedBox .default).issued ∧
    (((gappedBox .default).after {} undefinedGap).after {} []).interpolations.length ≠
      ((gappedBox .default).after {} []).interpolations.length ∧
    (((gappedBox .default).after {} undefinedGap).after {} knownWidth).vars.length ≠
      ((gappedBox .default).after {} knownWidth).vars.length ∧
    (((gappedBox (.pattern "v[index]")).after {} undefinedGap).after {} []).cssText ≠
      ((gappedBox (.pattern "v[index]")).after {} []).cssText ∧
    (((gappedBox firstNamed).after {} undefinedGap).after {} []).cssText ≠
      ((gappedBox firstNamed).after {} []).cssText ∧
    (∃ error, (loopedBox.build loopCache []).1 = .error (.styled error)) ∧
    (loopedBox.after loopCache []).cssText ≠ loopedBox.cssText ∧
    ((loopedBox.after loopCache []).build {} []).1.toOption ≠
      (loopedBox.build {} []).1.toOption := by
  have hgap : ∃ error, ((gappedBox .default).build {} undefinedGap).1 = .error (.styled error) ∧
      error.code = "invalid-interpolation" :=
    exists_styledError (by decide +kernel)
  have hloop : ∃ error, (loopedBox.build loopCache []).1 = .error (.styled error) ∧
      error.code = "cyclic-extends-error" :=
    exists_styledError (by decide +kernel)
  obtain ⟨gapError, hgap, -⟩ := hgap
  obtain ⟨loopError, hloop, -⟩ := hloop
  refine ⟨⟨gapError, hgap⟩, ?_, ?_, ?_, ?_, ?_, ?_, ⟨loopError, hloop⟩, ?_, ?_⟩
  all_goals decide +kernel

end CssExtract.Styled
