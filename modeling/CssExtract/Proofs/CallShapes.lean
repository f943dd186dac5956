import CssExtract.Proofs.Totality
import Mathlib.Data.List.Forall2

namespace CssExtract.Styled

open Package

/-- Nothing that only goes by the name of a kind. -/
def Param.IsRegular : Param → Prop
  | .opaqueKind _ => False
  | _ => True

inductive Param.IsOperation : Param → Prop
  | member (name : String) : IsOperation (.member name)
  | call (arguments : List Operand) : IsOperation (.call arguments)

inductive Operand.CanWrap : Operand → Prop
  | function {source : String} {node : Script.Node} : CanWrap ⟨source, node, .function⟩
  | element {source name : String} {node : Script.Node} :
      CanWrap ⟨source, node, .constant (.scalar (.string name))⟩
  | component {source name : String} {specifiers : List String} :
      CanWrap ⟨source, .identifier name, .lazy specifiers⟩

inductive Param.Wraps : Param → Prop
  | member (name : String) : Wraps (.member name)
  | call {argument : Operand} (h : argument.CanWrap) : Wraps (.call [argument])

/-- No call site of the tag with an operation, or one that is done. -/
inductive IsSkipped : List Param → Prop
  | short {params : List Param} (h : params.length < 2) : IsSkipped params
  | headless {params : List Param} (h : ∀ node, params.head? ≠ some (.callee node)) : IsSkipped params
  | done {node : Script.Node} {operation : Param} {arguments : List Operand}
      (h : operation.IsOperation) : IsSkipped [.callee node, operation, .call arguments]

inductive IsUsable : List Param → Prop
  | intro {node : Script.Node} {operation : Param} {template : Template} (h : operation.Wraps) :
      IsUsable [.callee node, operation, .template template]

/-- The specifiers that the name of a wrapped component is imported from. -/
def wrappedFrom : List Param → List String
  | [_, .call [⟨_, .identifier _, .lazy specifiers⟩], _] => specifiers
  | _ => []

/-- The specifier leads to a file or to none, both for the manifest it belongs to and for the file itself. -/
def Importer.Resolves (t : Tree) (i : Importer) (specifier : String) : Prop :=
  ∀ directory ∈ [importBase i.filename, i.directory t], Resolvable t specifier directory i.extensions

/-- The system does not answer where a manifest is looked for, or the matcher does not about a mask. -/
inductive Importer.Refused (t : Host) (i : Importer) (specifiers : List String) : Prop
  | importing {name : String} {fault : Tree.Fault} (named : i.filename.filter (!·.isEmpty) = some name)
      (refused : SearchRefused t.toTree (t.absolutePath name) fault) : Refused t i specifiers
  | imported {specifier : String} {file : Path} {fault : Tree.Fault} (mem : specifier ∈ specifiers)
      (seeks : Seeks t.toTree specifier i.filename i.extensions file)
      (refused : SearchRefused t.toTree file fault) : Refused t i specifiers
  | masked {specifier mask : String} {own found : Option Path} {manifest : Path} {fault : Glob.Fault}
      (mem : specifier ∈ specifiers) (search : i.selfManifest t.toTree = .ok own)
      (lookup : findManifest? t.toTree specifier i.filename i.extensions = .ok found)
      (owner : found.or own = some manifest) (read : readMask t.toTree manifest = .ok (some mask))
      (fails : i.MaskFails t specifier manifest mask (.matching fault)) : Refused t i specifiers

variable {t : Host} {i : Importer} {s : SiteContext} {params : List Param} {operation param : Param}
  {specifiers : List String} {failure : Failure} {ws : List Warning}

theorem Param.isOperation_of_kind (hregular : param.IsRegular)
    (h : param.kind = "call" ∨ param.kind = "member") : param.IsOperation := by
  cases param with
  | member name => exact .member name
  | call arguments => exact .call arguments
  | callee node => simp [Param.kind] at h
  | template template => simp [Param.kind] at h
  | opaqueKind kind => exact absurd hregular id

theorem Param.kind_of_isOperation (h : param.IsOperation) : param.kind = "call" ∨ param.kind = "member" := by
  cases h with
  | member name => exact .inr rfl
  | call arguments => exact .inl rfl

theorem Param.Wraps.isOperation (h : param.Wraps) : param.IsOperation := by
  cases h with
  | member name => exact .member name
  | call h => exact .call _

instance (t : Tree) (i : Importer) (specifier : String) : Decidable (i.Resolves t specifier) :=
  inferInstanceAs (Decidable (∀ directory ∈ [importBase i.filename, i.directory t],
    Resolvable t specifier directory i.extensions))

theorem Importer.FailsAmong.refused (h : i.FailsAmong t specifiers failure)
    (hresolves : ∀ specifier ∈ specifiers, i.Resolves t.toTree specifier) : i.Refused t specifiers := by
  rcases h with ⟨-, hnamed, hrefused⟩ | @⟨own, before, after, specifier, failure, hsearch, hsplit, -, hfails⟩
  · exact .importing hnamed hrefused
  have hmem : specifier ∈ specifiers := by simp [hsplit]
  have hresolvable := hresolves specifier hmem
  cases hfails with
  | manifest hlookup =>
      rcases hlookup with ⟨-, hbreaks⟩ | ⟨hseeks, hrefused⟩
      · exact absurd hbreaks (hresolvable _ List.mem_cons_self).not_breaksOff
      · exact .imported hmem hseeks hrefused
  | mask hlookup howner hread _ hfails =>
      cases hfails with
      | file hbreaks =>
          exact absurd hbreaks (hresolvable _ (List.mem_cons_of_mem _ List.mem_cons_self)).not_breaksOff
      | matching hleads hmatch => exact .masked hmem hsearch hlookup howner hread (.matching hleads hmatch)

theorem exec_componentOf_of_not_wraps (h : ¬ operation.Wraps) :
    exec (componentOf t s operation) ws = (.error (misused s.location), ws) := by
  unfold componentOf
  split
  · exact absurd (.member _) h
  · rename_i argument
    obtain ⟨source, node, knowledge⟩ := argument
    split
    · rename_i hknowledge
      obtain rfl : knowledge = .function := hknowledge
      exact absurd (.call .function) h
    · rename_i name hknowledge
      obtain rfl : knowledge = .constant (.scalar (.string name)) := hknowledge
      exact absurd (.call .element) h
    · rename_i specifiers name hknowledge hnode
      obtain rfl : knowledge = .lazy specifiers := hknowledge
      obtain rfl : node = .identifier name := hnode
      exact absurd (.call .component) h
    · rfl
  · rfl

theorem exists_component {first last : Param} (ws : List Warning) (h : operation.Wraps)
    (hsettled : ∀ failure, ¬ s.importer.FailsAmong t (wrappedFrom [first, operation, last]) failure) :
    ∃ found, (exec (componentOf t s operation) ws).1 = .ok found := by
  cases h with
  | member name => exact ⟨_, rfl⟩
  | call h =>
      cases h with
      | function => exact ⟨_, rfl⟩
      | element => exact ⟨_, rfl⟩
      | @component source name specifiers =>
          simp only [componentOf, exec_bind]
          cases hforeign : exec (isForeign t s.importer source specifiers) ws with
          | mk result ws' =>
              cases result with
              | error failure =>
                  exact absurd (exec_isForeign_eq_error_iff.1 (congrArg Prod.fst hforeign)) (hsettled failure)
              | ok foreign => cases foreign <;> exact ⟨_, rfl⟩

namespace Processor

variable {node : Script.Node} {template : Template}

theorem create_of_isSkipped (hregular : ∀ param ∈ params, param.IsRegular) (h : IsSkipped params) :
    create t s params = (.error .skip, []) := by
  cases h with
  | short h =>
      have hshape : hasShape anySite (params.map Param.kind) = false := by
        rcases params with _ | ⟨first, _ | ⟨second, params⟩⟩
        · rfl
        · simp [hasShape, anySite, eachAdmits]
        · simp only [List.length_cons] at h
          omega
      simp only [create, hshape, Bool.not_false, if_true]
  | headless h =>
      have hshape : hasShape anySite (params.map Param.kind) = false := by
        cases params with
        | nil => rfl
        | cons first params =>
            have hkind : "callee" ≠ first.kind := by
              cases first with
              | callee node => exact absurd rfl (h node)
              | opaqueKind kind => exact absurd (hregular _ List.mem_cons_self) id
              | _ => simp [Param.kind]
            simp [hasShape, anySite, eachAdmits, Constraint.admits, hkind]
      simp only [create, hshape, Bool.not_false, if_true]
  | @done node operation arguments h =>
      have hsupported : hasShape supportedSite ["callee", operation.kind, "call"] = true :=
        hasShape_supportedSite.2 ⟨_, _, rfl, Param.kind_of_isOperation h, .inr rfl⟩
      have hkinds : [.callee node, operation, .call arguments].map Param.kind =
          ["callee", operation.kind, "call"] := rfl
      simp only [create, hkinds, hasShape_anySite, hsupported, Bool.not_true, Bool.false_eq_true, if_false]

theorem create_of_isUsable (h : IsUsable params)
    (hsettled : ∀ failure, ¬ s.importer.FailsAmong t (wrappedFrom params) failure) :
    ∃ p, (create t s params).1 = .ok p := by
  cases h with
  | intro h =>
      obtain ⟨found, hfound⟩ := exists_component [] h hsettled
      rw [exec] at hfound
      rw [create_operation (Param.kind_of_isOperation h.isOperation), hfound]
      exact ⟨_, rfl⟩

/-- What is neither skipped nor processed is an error, whatever files there are. -/
theorem exists_misused (hregular : ∀ param ∈ params, param.IsRegular) (hskipped : ¬ IsSkipped params)
    (husable : ¬ IsUsable params) :
    ∃ loc, ∀ t, create t s params = (.error (.failed (misused loc)), []) := by
  rcases params with _ | ⟨first, _ | ⟨operation, params⟩⟩
  · exact absurd (.short (by simp)) hskipped
  · exact absurd (.short (by simp)) hskipped
  obtain ⟨node, rfl⟩ : ∃ node, first = .callee node := by
    by_contra hcallee
    exact hskipped (.headless fun node hhead => hcallee ⟨node, Option.some.inj hhead⟩)
  by_cases hshape : hasShape supportedSite ("callee" :: operation.kind :: params.map Param.kind) = true
  · obtain ⟨kind, kind', hkinds, hkind, hkind'⟩ := hasShape_supportedSite.1 hshape
    obtain ⟨rfl, hlast⟩ := List.cons.inj hkinds
    obtain ⟨last, rfl, rfl⟩ := List.map_eq_singleton_iff.1 hlast
    have hoperation := Param.isOperation_of_kind (hregular operation (by simp)) hkind
    cases last with
    | template template =>
        have hwraps : ¬ operation.Wraps := fun hwraps => husable (.intro hwraps)
        refine ⟨s.location, fun t => ?_⟩
        have hcomponent : (componentOf t s operation).run.run [] = (.error (misused s.location), []) :=
          exec_componentOf_of_not_wraps hwraps
        rw [create_operation hkind, hcomponent]
    | call arguments => exact absurd (.done hoperation) hskipped
    | opaqueKind kind => exact absurd (hregular (.opaqueKind kind) (by simp)) id
    | callee node => simp [Param.kind] at hkind'
    | member name => simp [Param.kind] at hkind'
  · refine ⟨none, fun t => ?_⟩
    rw [Bool.not_eq_true] at hshape
    have hkinds : (.callee node :: operation :: params).map Param.kind =
        "callee" :: operation.kind :: params.map Param.kind := rfl
    simp only [create, hkinds, hasShape_anySite, hshape, Bool.not_true, Bool.not_false, Bool.false_eq_true,
      if_false, if_true]

end Processor

/-- A call site of regular parameters is skipped, processed or an error by its shape alone, if the modules
that a wrapped name is imported from are found or not found and no answer is refused. If it is not processed,
there is no warning, whatever files there are. -/
theorem create_by_shape (hregular : ∀ param ∈ params, param.IsRegular)
    (hresolves : IsUsable params → ∀ specifier ∈ wrappedFrom params, s.importer.Resolves t.toTree specifier)
    (hanswered : IsUsable params → ¬ s.importer.Refused t (wrappedFrom params)) :
    ((Processor.create t s params).1 = .error .skip ↔ IsSkipped params) ∧
    ((∃ p, (Processor.create t s params).1 = .ok p) ↔ IsUsable params) ∧
    (¬ IsSkipped params → ¬ IsUsable params →
      ∃ loc, (Processor.create t s params).1 = .error (.failed (misused loc))) ∧
    ∀ e, (Processor.create t s params).1 = .error e → ∀ t', Processor.create t' s params = (.error e, []) := by
  by_cases husable : IsUsable params
  · obtain ⟨p, hp⟩ := Processor.create_of_isUsable husable fun failure hfails =>
      hanswered husable (hfails.refused (hresolves husable))
    have hskipped : ¬ IsSkipped params := fun hskipped => by
      simp [Processor.create_of_isSkipped hregular hskipped] at hp
    simp [hp, hskipped, husable]
  by_cases hskipped : IsSkipped params
  · have hcreate (t : Host) := Processor.create_of_isSkipped (t := t) (s := s) hregular hskipped
    simp [hcreate, hskipped, husable]
  · obtain ⟨loc, hcreate⟩ := Processor.exists_misused (s := s) hregular hskipped husable
    simp [hcreate, hskipped, husable]

def iconOperand : Operand := ⟨"Icon", .identifier "Icon", .lazy ["./icons", "ui-kit"]⟩

def iconContext : SiteContext := ⟨"Box", 0, {}, some "/app/src/App.js", none⟩

def iconSite (arguments : List Operand) : List Param :=
  [.callee (.identifier "styled"), .call arguments, .template ⟨"color: red;", [], none⟩]

theorem iconSites_by_shape :
    (∀ param ∈ iconSite [iconOperand], param.IsRegular) ∧
      (∀ specifier ∈ wrappedFrom (iconSite [iconOperand]), iconContext.importer.Resolves {} specifier) ∧
      ¬ iconContext.importer.Refused {} (wrappedFrom (iconSite [iconOperand])) ∧
      (∃ p, (Processor.create {} iconContext (iconSite [iconOperand])).1 = .ok p) ∧
      (∀ param ∈ iconSite [iconOperand, iconOperand], param.IsRegular) ∧
      ¬ IsUsable (iconSite [iconOperand, iconOperand]) ∧
      ∃ loc, ∀ t, Processor.create t iconContext (iconSite [iconOperand, iconOperand]) =
        (.error (.failed (misused loc)), []) := by
  have hregular (arguments : List Operand) : ∀ param ∈ iconSite arguments, param.IsRegular := by
    simp [iconSite, Param.IsRegular]
  have hresolves : ∀ specifier ∈ wrappedFrom (iconSite [iconOperand]),
      iconContext.importer.Resolves {} specifier := by
    decide +kernel
  have hanswered : ¬ iconContext.importer.Refused {} (wrappedFrom (iconSite [iconOperand])) := by
    have hown : findUp? {} (({} : Tree).absolutePath "/app/src/App.js") manifestName = .ok none := by
      decide +kernel
    have hself : iconContext.importer.selfManifest {} = .ok none := congrArg (Except.mapError .access) hown
    have hnone : ∀ specifier ∈ wrappedFrom (iconSite [iconOperand]),
        findManifest? {} specifier iconContext.importer.filename iconContext.importer.extensions = .ok none := by
      decide +kernel
    rintro (⟨hnamed, hrefused⟩ | ⟨hmem, hseeks, hrefused⟩ | ⟨hmem, hsearch, hlookup, howner, -, -⟩)
    · have herror := selfManifest_eq_error_iff.2 ⟨_, _, hnamed, hrefused, rfl⟩
      simp [hself] at herror
    · have herror := findManifest?_eq_error_iff.2 (.search hseeks hrefused)
      simp [hnone _ hmem] at herror
    · obtain rfl := Except.ok.inj (hself.symm.trans hsearch)
      obtain rfl := Except.ok.inj ((hnone _ hmem).symm.trans hlookup)
      simp at howner
  have hskipped : ¬ IsSkipped (iconSite [iconOperand, iconOperand]) := by
    rintro (hshort | hhead)
    · simp [iconSite] at hshort
    · exact hhead (.identifier "styled") rfl
  have husable : ¬ IsUsable (iconSite [iconOperand, iconOperand]) := by
    rintro ⟨⟨⟩⟩
  obtain ⟨-, hone, -, -⟩ := create_by_shape (hregular [iconOperand]) (fun _ => hresolves) (fun _ => hanswered)
  obtain ⟨-, -, htwo, hrejected⟩ := create_by_shape (t := {}) (s := iconContext)
    (hregular [iconOperand, iconOperand]) (fun h => absurd h husable) (fun h => absurd h husable)
  obtain ⟨loc, hmisused⟩ := htwo hskipped husable
  exact ⟨hregular _, hresolves, hanswered, hone.2 (.intro (.call .component)), hregular _, husable, loc,
    hrejected _ hmisused⟩

end CssExtract.Styled
