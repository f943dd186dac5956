import CssExtract.Proofs.Accounting
import CssExtract.Proofs.HeadNames
import CssExtract.Proofs.Rescan
import CssExtract.Proofs.Totality
import CssExtract.Proofs.WrapperText

namespace CssExtract.Styled

open Eval Script Text

variable {t : Host} {s : SiteContext} {source : List Char} {filename : Option String}
  {imports : Imports} {raw : RawSite} {head : Head}

/-- The head of a call site that is done: an operation and a call. -/
def Done (s : List Char) : Prop :=
  ∃ callee op arguments, readHeadText s = .ok ⟨callee, [op, .call arguments]⟩

theorem ops_ne_nil {state : HeadState} {last : Nat} {tokens : List Token} {s : List Char}
    (h : readTokens s state last tokens = .ok head) : head.ops ≠ [] := by
  induction tokens generalizing state last with
  | nil =>
      cases state with
      | chain head' =>
          simp only [readTokens] at h
          split_ifs at h with hops
          obtain rfl := Except.ok.inj h
          simpa using hops
      | start | member | call => simp [readTokens] at h
  | cons token tokens ih =>
      simp only [readTokens] at h
      split at h
      · simp at h
      · split at h
        · exact ih h
        · simp at h

theorem exists_of_create_eq_skip {node : Node} {operation : Param} {params : List Param}
    (h : Processor.create t s (.callee node :: operation :: params) = (.error .skip, [])) :
    ∃ param, params = [param] ∧ (param.kind = "template" ∨ param.kind = "call") ∧
      ∀ template, param ≠ .template template := by
  simp only [Processor.create, List.map_cons, Param.kind, hasShape_anySite, Bool.not_true,
    Bool.false_eq_true, if_false] at h
  split_ifs at h with hshape
  · simp at h
  · rw [Bool.not_eq_true', Bool.not_eq_false, hasShape_supportedSite] at hshape
    obtain ⟨k, k', hkinds, -, hlast⟩ := hshape
    obtain ⟨-, hkinds⟩ := List.cons.inj hkinds
    obtain ⟨param, rfl, rfl⟩ := List.map_eq_singleton_iff.1 hkinds
    refine ⟨param, rfl, hlast, ?_⟩
    rintro template rfl
    simp only at h
    generalize (componentOf t s operation).run.run [] = wrapped at h
    obtain ⟨result, warnings⟩ := wrapped
    cases result <;> simp at h

theorem done_of_create_eq_skip (hops : head.ops ≠ [])
    (h : Processor.create t s (paramsOf source filename imports raw head) = (.error .skip, [])) :
    raw.template = none ∧ ∃ op arguments, head.ops = [op, .call arguments] := by
  obtain ⟨callee, ops⟩ := head
  obtain ⟨op, ops, rfl⟩ := List.exists_cons_of_ne_nil hops
  obtain ⟨param, hparams, hkind, hother⟩ := exists_of_create_eq_skip h
  cases ops with
  | nil =>
      cases htemplate : raw.template with
      | none => simp [htemplate] at hparams
      | some template =>
          obtain rfl := List.singleton_inj.1 (by simpa [htemplate] using hparams)
          exact absurd rfl (hother _)
  | cons op' ops =>
      obtain ⟨rfl, hrest⟩ := List.cons.inj hparams
      obtain ⟨hops, htemplate⟩ := List.append_eq_nil_iff.1 hrest
      obtain rfl : ops = [] := by simpa using hops
      refine ⟨by cases htemplate' : raw.template <;> simp_all, op, ?_⟩
      cases op' with
      | member name => simp [opParam, Param.kind] at hkind
      | call arguments => exact ⟨arguments, rfl⟩

theorem create_of_done (op : Op) (arguments : List Argument) (callee : String)
    (htemplate : raw.template = none) :
    Processor.create t s (paramsOf source filename imports raw ⟨callee, [op, .call arguments]⟩) =
      (.error .skip, []) := by
  have hshape (kind : String) (h : kind = "call" ∨ kind = "member") :
      hasShape supportedSite ["callee", kind, "call"] = true :=
    hasShape_supportedSite.2 ⟨kind, "call", rfl, h, .inr rfl⟩
  cases op <;>
    simp [Processor.create, paramsOf, htemplate, hasShape_anySite, Param.kind, opParam, hshape]

theorem exists_of_paramsOf {node : Node} {operation : Param} {template : Template}
    (h : paramsOf source filename imports raw head = [.callee node, operation, .template template]) :
    ∃ op template', head.ops = [op] ∧ raw.template = some template' ∧
      node = .identifier head.callee ∧ operation = opParam imports op ∧
      template = templateOf source filename template' := by
  obtain ⟨callee, ops⟩ := head
  obtain ⟨hcallee, hparams⟩ := List.cons.inj h
  obtain rfl := Param.callee.inj hcallee
  cases htemplate : raw.template with
  | none =>
      obtain ⟨op, ops', rfl, -, hrest⟩ := List.map_eq_cons_iff.1 (by simpa [htemplate] using hparams)
      obtain ⟨op', -, rfl, hop, -⟩ := List.map_eq_cons_iff.1 hrest
      cases op' <;> simp [opParam] at hop
  | some template' =>
      rcases ops with _ | ⟨op, _ | ⟨op', ops⟩⟩
      · simp [htemplate] at hparams
      · obtain ⟨rfl, rfl⟩ : opParam imports op = operation ∧
            templateOf source filename template' = template := by
          simpa [htemplate] using hparams
        exact ⟨op, template', rfl, rfl, rfl, rfl, rfl⟩
      · have := congrArg List.length hparams
        simp [htemplate] at this

theorem exists_of_reference {operation : Param} {found : Component × List Operand} {name text : String}
    {foreign : Bool} {ws : List Warning} (h : (exec (componentOf t s operation) ws).1 = .ok found)
    (hfound : found.1 = .reference name text foreign) :
    ∃ argument importedFrom, operation = .call [argument] ∧ argument.node = .identifier name ∧
      argument.knowledge = .lazy importedFrom := by
  unfold componentOf at h
  split at h
  · obtain rfl := Except.ok.inj h
    simp at hfound
  · rename_i argument
    split at h
    · obtain rfl := Except.ok.inj h
      simp at hfound
    · obtain rfl := Except.ok.inj h
      simp at hfound
    · rename_i importedFrom name' hknowledge hnode
      rw [exec_bind] at h
      generalize exec (isForeign t s.importer argument.source importedFrom) ws = out at h
      obtain ⟨result, ws'⟩ := out
      cases result with
      | error failure => simp at h
      | ok isForeign =>
          refine ⟨argument, importedFrom, rfl, ?_, hknowledge⟩
          cases isForeign <;>
          · obtain rfl := Except.ok.inj h
            simp only [Component.reference.injEq] at hfound
            rw [hnode, hfound.1]
    · simp at h
  · simp at h

theorem isName_of_operandOf {argument : Argument} {name : String} {importedFrom : List String}
    (hnamed : argument.Named) (hnode : (operandOf imports argument).node = .identifier name)
    (hknowledge : (operandOf imports argument).knowledge = .lazy importedFrom) :
    IsName name.toList := by
  cases hshape : argument.shape with
  | identifier =>
      simp only [operandOf, hshape, Node.identifier.injEq] at hnode
      exact hnode ▸ hnamed hshape
  | function | constant | expression => simp [operandOf, hshape] at hnode hknowledge

theorem mem_interpolations {values : List (Nat × Value)} {holes : List TemplateHole} {index : Nat}
    {css : String} {p : Processor} {i : Interpolation}
    (h : i ∈ (Processor.buildHoles values holes index css p).2.interpolations) :
    i ∈ p.interpolations ∨
      ∃ hole ∈ holes, i.node = .arrow [] hole.expr ∧ hole.expr.code? = some i.source := by
  have hone (p : Processor) (css : String) (hole : TemplateHole) (index : Nat)
      (h : i ∈ (p.buildHole values css hole index).2.interpolations) :
      i ∈ p.interpolations ∨ i.node = .arrow [] hole.expr ∧ hole.expr.code? = some i.source := by
    simp only [Processor.buildHole] at h
    split at h
    · exact .inl h
    · split at h
      · exact .inl h
      · rename_i hcode _ _
        rcases List.mem_append.1 h with h | h
        · exact .inl h
        · obtain rfl := List.mem_singleton.1 h
          exact .inr ⟨rfl, hcode⟩
  induction holes generalizing index css p with
  | nil => exact .inl h
  | cons hole holes ih =>
      have hthis := hone p css hole index
      rw [Processor.buildHoles] at h
      generalize p.buildHole values css hole index = built at h hthis
      obtain ⟨result, q⟩ := built
      have hq (h : i ∈ q.interpolations) : i ∈ p.interpolations ∨
          ∃ hole' ∈ hole :: holes, i.node = .arrow [] hole'.expr ∧ hole'.expr.code? = some i.source :=
        (hthis h).imp_right fun hhole => ⟨hole, List.mem_cons_self, hhole⟩
      cases result with
      | error failure => exact hq h
      | ok text =>
          rcases ih h with h | ⟨hole', hmem, hhole⟩
          · exact hq h
          · exact .inr ⟨hole', List.mem_cons_of_mem _ hmem, hhole⟩

theorem mem_interpolations_of_build {cache : ValueCache} {values : List (Nat × Value)}
    {p : Processor} {i : Interpolation} (hnew : p.interpolations = [])
    (h : i ∈ (p.build cache values).2.interpolations) :
    ∃ hole ∈ p.template.holes, i.node = .arrow [] hole.expr ∧ hole.expr.code? = some i.source := by
  have hall (h : i ∈ (Processor.buildHoles values p.template.holes 0 p.template.first p).2.interpolations) :=
    (mem_interpolations h).resolve_left (by simp [hnew])
  simp only [Processor.build] at h
  split at h
  · simp [hnew] at h
  · generalize Processor.buildHoles values p.template.holes 0 p.template.first p = built at h hall
    obtain ⟨result, q⟩ := built
    cases result <;> exact hall h

theorem code?_raw (text : String) : (Node.raw text).code? = some (String.ofList (trim text.toList)) := by
  simp [Node.code?, Node.isCode, Node.code, Node.print]

theorem printable_of_build {cache : ValueCache} {values : List (Nat × Value)} {p : Processor}
    (hread : readHeadText raw.head.toList = .ok head)
    (hcreate : (Processor.create t s (paramsOf source filename imports raw head)).1 = .ok p)
    (hwrap : ∀ i ∈ (p.build cache values).2.interpolations, Wrappable i.source.toList) :
    (p.build cache values).2.Printable head.callee ∧ raw.template.isSome := by
  obtain ⟨node, operation, template, found, hparams, hfound, hp⟩ := Processor.create_eq_ok hcreate
  obtain ⟨op, template', hops, htemplate, rfl, rfl, rfl⟩ := exists_of_paramsOf hparams
  refine ⟨?_, by simp [htemplate]⟩
  have hthunks {i : Interpolation} (hi : i ∈ (p.build cache values).2.interpolations) :=
    mem_interpolations_of_build (by rw [hp]; rfl) hi
  obtain ⟨issued, interpolations, cssText, hkeeps⟩ := p.build_keeps cache values
  rw [hkeeps] at hwrap hthunks ⊢
  subst hp
  constructor
  case callee => rfl
  case reference =>
    intro name text foreign hcomponent
    obtain ⟨argument, importedFrom, hoperation, hnode, hknowledge⟩ := exists_of_reference hfound hcomponent
    cases op with
    | member name => simp [opParam] at hoperation
    | call arguments =>
        obtain ⟨argument', rfl, rfl⟩ : ∃ a, arguments = [a] ∧ operandOf imports a = argument := by
          simpa [opParam, List.map_eq_singleton_iff] using hoperation
        refine isName_of_operandOf ?_ hnode hknowledge
        exact named_of_readHeadText hread (.call [argument']) (by simp [hops]) argument' (by simp)
  case thunks =>
    intro i hi
    obtain ⟨hole, hhole, hnode, hcode⟩ := hthunks hi
    obtain ⟨raw, -, rfl⟩ := List.mem_map.1 hhole
    refine ⟨raw.source, hnode, ?_⟩
    rw [code?_raw] at hcode
    obtain hcode := Option.some.inj hcode
    simpa [← hcode] using hwrap i hi

/-- The code that an extraction gives can be read back: its imports can be read, nothing after a
processed site goes on with it, and the expressions of the site can stand in thunks. -/
structure Readable (text : String) (first : Extraction) : Prop where
  imports : ∃ imports, parseImports first.code.toList = .ok imports
  stops : ∀ item ∈ first.sites, Stops (text.toList.drop item.site.span.stop)
  thunks : ∀ item ∈ first.sites, ∀ i ∈ item.processor.interpolations, Wrappable i.source.toList

instance (text : String) (first : Extraction) : Decidable (Readable text first) :=
  decidable_of_iff ((parseImports first.code.toList).toOption.isSome ∧
      (∀ item ∈ first.sites, Stops (text.toList.drop item.site.span.stop)) ∧
      ∀ item ∈ first.sites, ∀ i ∈ item.processor.interpolations, Wrappable i.source.toList) <| by
    have himports : (parseImports first.code.toList).toOption.isSome ↔
        ∃ imports, parseImports first.code.toList = .ok imports := by
      cases parseImports first.code.toList <;> simp [Except.toOption]
    rw [himports]
    exact ⟨fun h => ⟨h.1, h.2.1, h.2.2⟩, fun h => ⟨h.imports, h.stops, h.thunks⟩⟩

variable {m : Module} {site : RawSite × Nat} {o : Outcome}

theorem Build.interpolations_finished (b : Build) (mode : Mode) :
    (b.finished mode).processor.interpolations = b.run.2.interpolations := by
  simp only [Build.finished]
  split <;> rename_i h <;> simp [h]

theorem Module.EndsAs.rewrite (h : m.EndsAs .runtime site o) (hok : o.fails = false)
    (htag : IsName m.options.tag.toList)
    (hhead : ∃ b, site.1.head.toList = m.options.tag.toList ++ b ∧ Ends b.head?)
    (hstops : ∀ item ∈ (m.result .runtime).sites, Stops (m.source.drop item.site.span.stop))
    (hthunks : ∀ item ∈ (m.result .runtime).sites, ∀ i ∈ item.processor.interpolations,
      Wrappable i.source.toList) :
    Rewrite m.source m.options.tag.toList Done site.1 (o.node?.map (·.print 0)) := by
  cases h with
  | unreadable | rejected | unbuilt => simp [Outcome.fails] at hok
  | @skipped found read create =>
      obtain ⟨-, -, -, head, hread, hparams⟩ := Module.read_eq_ok read
      rw [Module.create, hparams] at create
      obtain ⟨htemplate, op, arguments, hops⟩ := done_of_create_eq_skip (ops_ne_nil hread) create
      exact .kept htemplate ⟨head.callee, op, arguments, by rw [hread, ← hops]⟩
  | @replaced found p rule warnings b read create due item build =>
      obtain ⟨hspan, -, -, head, hread, hparams⟩ := Module.read_eq_ok read
      have hmem : b.finished .runtime ∈ (m.result .runtime).sites := List.mem_map_of_mem due
      have hrun : b.run = p.build b.cache b.values := by rw [Build.run, item]
      have hthunks := hthunks _ hmem
      rw [Build.interpolations_finished, hrun] at hthunks
      have hcreate := congrArg Prod.fst create
      rw [Module.create, hparams] at hcreate
      obtain ⟨hprintable, htemplate⟩ := printable_of_build hread hcreate hthunks
      have hstops := hstops _ hmem
      rw [show (b.finished .runtime).site = found by rw [Build.finished, item], hspan] at hstops
      obtain ⟨text, hsplit, hends⟩ := hhead
      have hcallee : head.callee = m.options.tag := by
        rw [hsplit] at hread
        rw [callee_of_readHeadText htag hends hread, String.ofList_toList]
      rw [hcallee] at hprintable
      obtain ⟨x, y, hwrapper⟩ := hprintable.readHeadText_wrapper htag
      have hprint := hprintable.print_wrapper
      rw [hprint] at hwrapper
      obtain ⟨object, hobject, hprops⟩ := hprintable.exists_props
      have hnode : (Outcome.replaced warnings (Mode.runtime.replacementOf b.run.2).node rule).node? =
          some (p.build b.cache b.values).2.wrapper := by
        rw [hrun]
        rfl
      rw [hnode, Option.map_some, hprint]
      refine .given htemplate hstops hprintable.neutral_tagArgument ?_ ⟨_, _, _, hwrapper⟩
      rw [hprops]
      exact (solid_braces hobject).neutral

theorem Module.create_of_done {found : CallSite} (htemplate : site.1.template = none)
    (hdone : Done site.1.head.toList) (hread : m.read site = .ok found) :
    m.create found = (.error .skip, []) := by
  obtain ⟨-, -, -, head, hhead, hparams⟩ := Module.read_eq_ok hread
  obtain ⟨callee, op, arguments, hdone⟩ := hdone
  obtain rfl := Except.ok.inj (hhead.symm.trans hdone)
  rw [Module.create, hparams]
  exact Styled.create_of_done op arguments callee htemplate

theorem extract_of_done {options : Options} {mode : Mode} {text : String} {raws : List RawSite}
    (himports : parseImports text.toList = .ok imports)
    (hsites : findSites text.toList options.tag.toList = .ok raws)
    (hdone : ∀ raw ∈ raws, raw.template = none ∧ Done raw.head.toList) :
    extract t options mode filename text = .ok { code := text } := by
  let m : Module := ⟨t, options, filename, text.toList, imports, raws⟩
  have hm : moduleOf? t options filename text = some m :=
    moduleOf?_eq_some_iff.2 ⟨himports, hsites, rfl, rfl, rfl, rfl⟩
  have hskip {found : CallSite} (h : found ∈ m.callSites) : m.create found = (.error .skip, []) := by
    obtain ⟨site, hsite, hread⟩ := Module.mem_callSites_iff.1 h
    obtain ⟨htemplate, hdone⟩ := hdone site.1 (List.fst_mem_of_mem_zipIdx hsite)
    exact Module.create_of_done htemplate hdone hread
  have hunreadable : m.found.filterMap m.unreadable? = [] := by
    refine List.filterMap_eq_nil_iff.2 fun found hfound => ?_
    obtain ⟨site, hsite, rfl⟩ := List.mem_map.1 hfound
    obtain ⟨-, callee, op, arguments, hhead⟩ := hdone site.1 (List.fst_mem_of_mem_zipIdx hsite)
    simp [Module.read, callSiteOf, hhead, Module.unreadable?]
  have hnone : m.constructed = [] := by
    refine List.filterMap_eq_nil_iff.2 fun found hfound => ?_
    simp [Module.construct?, hskip hfound, Except.toOption]
  have hbuilds : m.builds = [] := by
    rw [Module.builds, hnone]
    rfl
  have hreports : (m.callSites.flatMap fun found => (m.rejection? found).toList ++ m.warnings found) = [] := by
    refine List.flatMap_eq_nil_iff.2 fun found hfound => ?_
    simp [Module.rejection?, Module.warnings, hskip hfound]
  refine (extract_eq_ok_iff hm).2 ⟨⟨fun found hfound failure hfailure => ?_, by simp [hbuilds]⟩, ?_⟩
  · simp [hskip hfound] at hfailure
  · simp [Module.result, Module.diagnostics, hbuilds, hunreadable, hreports, replacements, splice, m]

/-- Code that an extraction gives without an error is left as it is by the next one, if it can be
read back. -/
theorem extract_idempotent {t' : Host} {options : Options} {text : String} {first : Extraction}
    (htag : IsName options.tag.toList)
    (h : extract t options .runtime filename text = .ok first) (hok : first.hasErrors = false)
    (hreadable : Readable text first) :
    extract t' options .runtime filename first.code = .ok { code := first.code } := by
  obtain ⟨imports, himports⟩ := hreadable.imports
  obtain ⟨e, -, rfl⟩ | ⟨m, hm, hall, rfl⟩ := extract_cases h
  · simp [Extraction.hasErrors, parseDiagnostic, Diagnostic.isError] at hok
  obtain ⟨-, hraws, -, rfl, rfl, hsource⟩ := moduleOf?_eq_some_iff.1 hm
  rw [← hsource] at hraws
  have hname : m.options.tag.toList ≠ [] := by
    obtain ⟨c, rest, hc, -⟩ := htag
    simp [hc]
  obtain ⟨outcome, haccounts⟩ := hall.accounts .runtime (findSites_apart hraws hname)
  have hrewrites : ∀ site ∈ m.raws.zipIdx, Rewrite m.source m.options.tag.toList Done site.1
      ((outcome site).node?.map (·.print 0)) := by
    intro site hsite
    refine ((haccounts.ends site hsite _).2 rfl).rewrite ?_ htag ?_ ?_ hreadable.thunks
    · rw [← Bool.not_eq_true, haccounts.hasErrors] at hok
      exact Bool.eq_false_iff.2 fun hfails => hok ⟨site, hsite, hfails⟩
    · exact exists_head_of_sitesFrom htag hraws rfl (List.fst_mem_of_mem_zipIdx hsite)
    · rw [hsource]
      exact hreadable.stops
  let items := m.raws.zipIdx.map fun site => (site.1, (outcome site).node?.map (·.print 0))
  have hitems : items.map Prod.fst = m.raws := by
    simp only [items, List.map_map]
    exact List.zipIdx_map_fst 0 m.raws
  have hunderway : Underway m.source m.options.tag.toList Done 0 m.source items
      (m.result .runtime).code.toList := by
    refine ⟨rfl, Nat.zero_add _, ?_, ?_⟩
    · rintro item hitem
      obtain ⟨site, hsite, rfl⟩ := List.mem_map.1 hitem
      exact hrewrites site hsite
    · have hcode := haccounts.code
      simpa [items, List.filterMap_map, Function.comp_def] using hcode
  have hrecoded : Recoded _ _ (joined none) _ _ :=
    hunderway.recoded htag (by rw [hitems]; exact hraws)
  obtain ⟨raws, hsites, hdone⟩ := hrecoded.sitesFrom htag rfl List.drop_zero
  exact extract_of_done himports hsites hdone

def layeredComponents : String := "const A = styled.a`b: $\x7bw\x7d;`;\nstyled(A)`c`;\n"

theorem layeredComponents_left_alone :
    ∃ first, IsName "styled".toList ∧ extract {} {} .runtime none layeredComponents = .ok first ∧
      first.hasErrors = false ∧ Readable layeredComponents first ∧
      (first.sites.length, first.rules.length) = (2, 2) ∧
      extract {} {} .runtime none first.code = .ok { code := first.code } := by
  have hfacts : (extract {} {} .runtime none layeredComponents).toOption.any (fun first =>
      !first.hasErrors && decide (Readable layeredComponents first) &&
        decide ((first.sites.length, first.rules.length) = (2, 2))) = true := by
    decide +kernel
  cases hrun : extract {} {} .runtime none layeredComponents with
  | error e => simp [hrun, Except.toOption] at hfacts
  | ok first =>
      simp only [hrun, Except.toOption, Option.any_some, Bool.and_eq_true, Bool.not_eq_true',
        decide_eq_true_eq] at hfacts
      obtain ⟨⟨hok, hreadable⟩, hlengths⟩ := hfacts
      exact ⟨first, by decide +kernel, rfl, hok, hreadable, hlengths,
        extract_idempotent (by decide +kernel) hrun hok hreadable⟩

/-- Code that an extraction gives without an error is left as it is by the next one, which has no
site to process and nothing to report as an error. -/
def LeftAlone (text : String) : Prop :=
  ∀ (t : Host) (first : Extraction), extract t {} .runtime none text = .ok first →
    first.hasErrors = false →
    ∃ again, extract t {} .runtime none first.code = .ok again ∧ again.code = first.code ∧
      again.sites = [] ∧ again.rules = [] ∧ again.hasErrors = false

def commentedWidth : String := "const A = styled.div`width: $\x7bw // px\n\x7d`;\n"

theorem commentedWidth_not_leftAlone : ¬ LeftAlone commentedWidth := by
  have hfirst : (extract {} {} .runtime none commentedWidth).toOption.map
      (fun first => (first.hasErrors,
        (extract {} {} .runtime none first.code).toOption.map Extraction.hasErrors)) =
      some (false, some true) := by
    decide +kernel
  intro h
  cases hrun : extract {} {} .runtime none commentedWidth with
  | error e => simp [hrun, Except.toOption] at hfirst
  | ok first =>
      rw [hrun] at hfirst
      obtain ⟨hok, hagain⟩ := Prod.mk.inj (Option.some.inj hfirst)
      obtain ⟨again, hsame, -, -, -, herror⟩ := h {} first hrun hok
      simp [hsame, Except.toOption, herror] at hagain

end CssExtract.Styled
