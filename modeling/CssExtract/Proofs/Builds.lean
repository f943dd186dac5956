import CssExtract.Proofs.Bindings

namespace CssExtract.Styled

open Eval Script Text

theorem serializableScalar_ok {s : Scalar} (h : InRange s) : ∃ b, serializableScalar s = .ok b := by
  cases s with
  | number n =>
      cases n with
      | int n =>
          have hn : n.natAbs < Number.floatBound := h
          exact ⟨true, by simp [serializableScalar, finite?, hn]⟩
      | float x => exact ⟨_, rfl⟩
  | _ => exact ⟨_, rfl⟩

def Failure.OfValue (failure : Failure) : Prop :=
  ∃ loc, (∃ shown, failure = .styled ⟨.evaluation shown, loc⟩) ∨
    ∃ shown source, failure = .styled ⟨.interpolation shown source, loc⟩

theorem Failure.OfValue.reported {failure : Failure} (h : failure.OfValue) : failure.Reported := by
  obtain ⟨loc, ⟨shown, rfl⟩ | ⟨shown, source, rfl⟩⟩ := h
  · exact ⟨_, rfl⟩
  · exact ⟨_, rfl⟩

theorem checkValue_ofValue {s : Scalar} {text : String} {loc : Option Location} {failure : Failure}
    (hs : InRange s) (h : checkValue (.scalar s) (.raw text) loc = .error failure) :
    failure.OfValue := by
  obtain ⟨serial, hserial⟩ := serializableScalar_ok hs
  have hcode : (Node.raw text).code? = some (Node.raw text).code := by simp [Node.code?, Node.isCode]
  unfold checkValue at h
  split at h
  · simp [pure, Except.pure] at h
  · simp only [serializable, hserial, bind, Except.bind, hcode] at h
    split_ifs at h
    · simp [pure, Except.pure] at h
    · split at h
      · exact ⟨loc, .inl ⟨_, (Except.error.inj h).symm⟩⟩
      · exact ⟨loc, .inl ⟨_, (Except.error.inj h).symm⟩⟩
      · exact ⟨loc, .inr ⟨_, _, (Except.error.inj h).symm⟩⟩

namespace Module

variable {m : Module} {b : Build}

theorem raw_of_template_mem_paramsOf {source : List Char} {filename : Option String}
    {imports : Imports} {raw : RawSite} {head : Head} {template : Template}
    (h : .template template ∈ paramsOf source filename imports raw head) :
    ∀ hole ∈ template.holes, ∃ text, hole.expr = .raw text := by
  simp only [paramsOf, List.cons_append, List.mem_cons, List.mem_append, List.mem_map,
    Option.mem_toList, Option.map_eq_some_iff, reduceCtorEq, false_or] at h
  obtain ⟨op, -, hop⟩ | ⟨t, -, ht⟩ := h
  · cases op <;> simp [opParam] at hop
  · obtain rfl := Param.template.inj ht
    intro hole hmem
    obtain ⟨rawHole, -, rfl⟩ := List.mem_map.1 hmem
    exact ⟨_, rfl⟩

theorem raw_of_mem_constructed {item : ProcessedSite} (h : item ∈ m.constructed) :
    ∀ hole ∈ item.processor.template.holes, ∃ text, hole.expr = .raw text := by
  obtain ⟨hsite, hcreate⟩ := mem_constructed_iff.1 h
  obtain ⟨raw, -, hread⟩ := mem_callSites_iff.1 hsite
  obtain ⟨-, -, -, head, -, hparams⟩ := read_eq_ok hread
  obtain ⟨node, operation, template, found, hshape, -, hp⟩ := Processor.create_eq_ok hcreate
  have hmem : .template template ∈ paramsOf m.source m.filename m.imports raw.1 head := by
    rw [← hparams, hshape]
    simp
  rw [hp]
  exact raw_of_template_mem_paramsOf hmem

/-- What building a processor depends on. -/
structure Informed (comp : String → Option Processor) (b : Build) (e : Evaluator) : Prop where
  complete : Complete comp e
  graph : b.cache.graph = e.graph
  sampled : Sampled comp e b.cache.points
  sample : ∀ {name p}, comp name = some p → ∃ point, b.cache.points.get? name = some point
  usable : ∀ known ∈ b.values, Usable known.2

theorem informed_of_mem_buildsFrom {comp : String → Option Processor} {points : Entries Point}
    {items : List ProcessedSite} {e : Evaluator} (hcomplete : Complete comp e)
    (hsampled : Sampled comp e points)
    (hsample : ∀ {name p}, comp name = some p → ∃ point, points.get? name = some point)
    (hraw : ∀ item ∈ items, ∀ hole ∈ item.processor.template.holes, ∃ text, hole.expr = .raw text)
    (h : b ∈ buildsFrom points items e) : ∃ e', Informed comp b e' := by
  induction items generalizing e with
  | nil => simp [buildsFrom] at h
  | cons item items ih =>
      obtain ⟨hitem, hraw⟩ := List.forall_mem_cons.1 hraw
      obtain ⟨values, e', hrun, hcomplete', hadvances, hvalues⟩ :=
        holeValues_spec hcomplete hitem 0
      rw [buildsFrom] at h
      rcases List.mem_cons.1 h with rfl | h
      · refine ⟨e', hcomplete', ?_, hsampled.advance hadvances, hsample, ?_⟩
        · simp [buildOf, hrun]
        · simpa [buildOf, hrun] using hvalues
      · rw [show (buildOf points item e).2 = e' by simp [buildOf, hrun]] at h
        exact ih hcomplete' (hsampled.advance hadvances) hraw h

theorem informed_of_mem_builds (h : b ∈ m.builds) : ∃ e, Informed m.component b e := by
  obtain ⟨points, e, hrun, hcomplete, hsampled, hsample⟩ :=
    values_spec m.bound_moduleBindings (known_moduleBindings m.source m.constructed)
  simp only [builds, evaluated, hrun] at h
  exact informed_of_mem_buildsFrom hcomplete hsampled hsample (fun _ => raw_of_mem_constructed) h

theorem mem_of_fixedValue? {values : List (Nat × Value)} {index : Nat} {value : Value}
    (h : Processor.fixedValue? values index = some value) : (index, value) ∈ values := by
  obtain ⟨before, after, rfl, -⟩ := List.lookup_eq_some_iff.1 (Processor.lookup_of_fixedValue? h)
  simp

theorem ofValue_of_obstacle {comp : String → Option Processor} {e : Evaluator} {hole : TemplateHole}
    {index : Nat} {failure : Failure} {text : String} (hinformed : Informed comp b e)
    (hraw : hole.expr = .raw text) (h : Processor.Obstacle b.values hole index failure) :
    failure.OfValue := by
  obtain hcode | ⟨-, hfixed, hmetadata, hcheck⟩ := h
  · simp [hraw, Node.code?, Node.isCode] at hcode
  · obtain ⟨s, rfl, hs⟩ | hsome := hinformed.usable _ (mem_of_fixedValue? hfixed)
    · rw [hraw] at hcheck
      exact checkValue_ofValue hs hcheck
    · simp only at hsome
      rw [hmetadata] at hsome
      simp at hsome

theorem reported_of_mem_builds (h : b ∈ m.builds) : b.Reported := by
  intro failure hrun
  have hitem := item_mem_of_mem_builds h
  obtain ⟨e, hinformed⟩ := informed_of_mem_builds h
  obtain ⟨hole, hmem, hobstacle⟩ | ⟨css, hextract⟩ :=
    Processor.build_eq_error (fresh_of_mem_constructed hitem).cssText hrun
  · obtain ⟨text, htext⟩ := raw_of_mem_constructed hitem hole.1 (List.fst_mem_of_mem_zipIdx hmem)
    exact (ofValue_of_obstacle hinformed htext hobstacle).reported
  · simp only [Processor.extractRules] at hextract
    split at hextract
    · exact ⟨_, (Except.error.inj hextract).symm⟩
    · simp at hextract

end Module

end CssExtract.Styled
