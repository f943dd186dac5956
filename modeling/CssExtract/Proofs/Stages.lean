import CssExtract.Proofs.Building

namespace CssExtract.Styled

open Eval Script Text

def Failure.Reported (failure : Failure) : Prop := ∃ e, failure = .styled e

def Mode.replacementOf (mode : Mode) (p : Processor) : Replacement :=
  match mode with
  | .runtime => ⟨p.wrapper, true⟩
  | .eval => ⟨p.metadata, false⟩

theorem replaceFor_eq {mode : Mode} {p : Processor} (h : p.replacement = none) :
    p.replaceFor mode = .ok { p with replacement := some (mode.replacementOf p) } := by
  cases mode <;>
    simp [Processor.replaceFor, Processor.replaceForRuntime, Processor.replaceForEvaluation,
      Processor.replace, Mode.replacementOf, h]

structure Build where
  item : ProcessedSite
  cache : ValueCache
  values : List (Nat × Value)

namespace Build

variable (b : Build)

def run : Except Failure Rules × Processor := b.item.processor.build b.cache b.values

def Reported : Prop := ∀ failure, b.run.1 = .error failure → failure.Reported

def rules? : Option Rules := b.run.1.toOption

def report? : Option Diagnostic :=
  match b.run.1 with
  | .error (.styled e) => some (e.diagnostic (some b.item.site.loc))
  | _ => none

def finished (mode : Mode) : ProcessedSite :=
  ⟨b.item.site, match b.run with
    | (.ok _, p) => { p with replacement := some (mode.replacementOf p) }
    | (.error _, p) => p⟩

variable {b} {mode : Mode}

theorem run_keeps : Processor.Keeps b.item.processor b.run.2 := Processor.build_keeps _ _ _

theorem replacement_finished {rules : Rules} (h : b.run.1 = .ok rules) :
    (b.finished mode).processor.replacement = some (mode.replacementOf b.run.2) := by
  simp only [finished]
  split
  · rename_i hrun
    simp [hrun]
  · rename_i hrun
    simp [hrun] at h

theorem replacement_finished_of_error {failure : Failure} (h : b.run.1 = .error failure)
    (hnew : b.item.processor.replacement = none) :
    (b.finished mode).processor.replacement = none := by
  simp only [finished]
  split
  · rename_i hrun
    simp [hrun] at h
  · rename_i hrun
    have hkeeps := b.run_keeps.replacement_eq
    rw [hrun] at hkeeps
    exact hkeeps.trans hnew

variable (b)

def finish (mode : Mode) : Except Failure (ProcessedSite × List Rules × List Diagnostic) := do
  let (processor, rules, reported) ← match b.run.1 with
    | .ok rules => do .ok (← b.run.2.replaceFor mode, [rules], [])
    | .error (.styled error) => .ok (b.run.2, [], [error.diagnostic (some b.item.site.loc)])
    | .error failure => .error failure
  return (⟨b.item.site, processor⟩, rules, reported)

theorem finish_eq_ok_iff {mode : Mode} {r : ProcessedSite × List Rules × List Diagnostic}
    (h : b.item.processor.replacement = none) :
    b.finish mode = .ok r ↔
      b.Reported ∧ r = (b.finished mode, b.rules?.toList, b.report?.toList) := by
  have hnone : b.run.2.replacement = none := b.run_keeps.replacement_eq.trans h
  simp only [finish, Reported, finished, rules?, report?, Failure.Reported]
  generalize b.run = built at hnone
  obtain ⟨result, p⟩ := built
  cases result with
  | ok rules =>
      simp [replaceFor_eq hnone, bind, Except.bind, pure, Except.pure, Except.toOption, eq_comm]
  | error failure =>
      cases failure <;> simp [bind, Except.bind, pure, Except.pure, Except.toOption, eq_comm]

end Build

theorem filterMap_cons_eq_append {α β : Type} (f : α → Option β) (a : α) (l : List α) :
    (a :: l).filterMap f = (f a).toList ++ l.filterMap f := by
  cases h : f a <;> simp [h]

def buildOf (points : Entries Point) (item : ProcessedSite) (e : Evaluator) : Build × Evaluator :=
  let known := (holeValues item.processor.template.holes 0).run e
  (⟨item, ⟨known.2.graph, points⟩, known.1⟩, known.2)

/-- Processors are built in order, each with the values that are known by then. -/
def buildsFrom (points : Entries Point) : List ProcessedSite → Evaluator → List Build
  | [], _ => []
  | item :: rest, e => (buildOf points item e).1 :: buildsFrom points rest (buildOf points item e).2

theorem map_item_buildsFrom (points : Entries Point) (items : List ProcessedSite) (e : Evaluator) :
    (buildsFrom points items e).map Build.item = items := by
  induction items generalizing e with
  | nil => rfl
  | cons item items ih => exact congrArg (item :: ·) (ih _)

theorem finishAll_cons (mode : Mode) (points : Entries Point) (item : ProcessedSite)
    (items : List ProcessedSite) (e : Evaluator) :
    finishAll mode points (item :: items) e = (do
      let one ← (buildOf points item e).1.finish mode
      let others ← finishAll mode points items (buildOf points item e).2
      return (one.1 :: others.1, one.2.1 ++ others.2.1, one.2.2 ++ others.2.2)) := by
  rw [finishAll, buildOf]
  generalize (holeValues item.processor.template.holes 0).run e = known
  obtain ⟨values, e⟩ := known
  simp only [Build.finish, Build.run]
  generalize item.processor.build ⟨e.graph, points⟩ values = built
  obtain ⟨result, p⟩ := built
  cases result with
  | ok rules => cases p.replaceFor mode <;> simp [bind, Except.bind, pure, Except.pure]
  | error failure => cases failure <;> rfl

theorem finishAll_eq_ok_iff {mode : Mode} {points : Entries Point} {items : List ProcessedSite}
    {e : Evaluator} {r : List ProcessedSite × List Rules × List Diagnostic}
    (hnew : ∀ item ∈ items, item.processor.replacement = none) :
    finishAll mode points items e = .ok r ↔
      (∀ b ∈ buildsFrom points items e, b.Reported) ∧
        r = ((buildsFrom points items e).map (·.finished mode),
          (buildsFrom points items e).filterMap Build.rules?,
          (buildsFrom points items e).filterMap Build.report?) := by
  induction items generalizing e r with
  | nil => simp [finishAll, buildsFrom, eq_comm]
  | cons item items ih =>
      obtain ⟨hitem, hitems⟩ := List.forall_mem_cons.1 hnew
      have hone : (buildOf points item e).1.item.processor.replacement = none := hitem
      rw [finishAll_cons, buildsFrom]
      simp only [bind_eq_ok_iff, Build.finish_eq_ok_iff _ hone, ih hitems, List.forall_mem_cons,
        filterMap_cons_eq_append, List.map_cons]
      constructor
      · rintro ⟨_, ⟨hone, rfl⟩, _, ⟨hrest, rfl⟩, hr⟩
        exact ⟨⟨hone, hrest⟩, (Except.ok.inj hr).symm⟩
      · rintro ⟨⟨hone, hrest⟩, rfl⟩
        exact ⟨_, ⟨hone, rfl⟩, _, ⟨hrest, rfl⟩, rfl⟩

/-- A module under extraction: what it is read as, and what its call sites are set up with. -/
structure Module where
  host : Host
  options : Options
  filename : Option String
  source : List Char
  imports : Imports
  raws : List RawSite

def moduleOf? (t : Host) (options : Options) (filename : Option String) (text : String) :
    Option Module := do
  let imports ← (parseImports text.toList).toOption
  let raws ← (findSites text.toList options.tag.toList).toOption
  return ⟨t, options, filename, text.toList, imports, raws⟩

namespace Module

variable (m : Module)

def read (raw : RawSite × Nat) : Except ParseError CallSite :=
  callSiteOf m.source m.filename m.imports raw.1 raw.2

def found : List (Except ParseError CallSite) := m.raws.zipIdx.map m.read

def unreadable? : Except ParseError CallSite → Option Diagnostic
  | .error e => some (parseDiagnostic m.filename e)
  | .ok _ => none

def callSites : List CallSite := m.found.filterMap Except.toOption

def create (site : CallSite) : Except CreationError Processor × List Warning :=
  Processor.create m.host (contextOf m.options m.filename site) site.params

def construct? (site : CallSite) : Option ProcessedSite :=
  (m.create site).1.toOption.map (⟨site, ·⟩)

def rejection? (site : CallSite) : Option Diagnostic :=
  match (m.create site).1 with
  | .error (.failed (.styled e)) => some (e.diagnostic (some site.loc))
  | _ => none

def warnings (site : CallSite) : List Diagnostic := (m.create site).2.map (warningDiagnostic site)

/-- Setting up a processor fails by nothing but what is reported. -/
def Creatable (site : CallSite) : Prop :=
  ∀ failure, (m.create site).1 = .error (.failed failure) → failure.Reported

def setUp (site : CallSite) : Except Failure (List ProcessedSite × List Diagnostic) :=
  match (m.create site).1 with
  | .ok processor => .ok ([⟨site, processor⟩], [])
  | .error (.failed (.styled e)) => .ok ([], [e.diagnostic (some site.loc)])
  | .error (.failed failure) => .error failure
  | .error .skip | .error .noCallee => .ok ([], [])

theorem createAll_cons (site : CallSite) (sites : List CallSite) :
    createAll m.host m.options m.filename (site :: sites) = (do
      let one ← m.setUp site
      let others ← createAll m.host m.options m.filename sites
      return (one.1 ++ others.1, one.2 ++ m.warnings site ++ others.2)) := by
  simp only [createAll, setUp, warnings, create]
  generalize Processor.create m.host (contextOf m.options m.filename site) site.params = created
  obtain ⟨result, warnings⟩ := created
  cases result with
  | ok processor => rfl
  | error e =>
      cases e with
      | skip | noCallee => rfl
      | failed failure => cases failure <;> rfl

theorem setUp_eq_ok_iff {site : CallSite} {r : List ProcessedSite × List Diagnostic} :
    m.setUp site = .ok r ↔
      m.Creatable site ∧ r = ((m.construct? site).toList, (m.rejection? site).toList) := by
  simp only [setUp, Creatable, construct?, rejection?, Failure.Reported]
  cases (m.create site).1 with
  | ok processor => simp [Except.toOption, eq_comm]
  | error e =>
      cases e with
      | skip | noCallee => simp [Except.toOption, eq_comm]
      | failed failure => cases failure <;> simp [Except.toOption, eq_comm]

theorem createAll_eq_ok_iff {sites : List CallSite} {r : List ProcessedSite × List Diagnostic} :
    createAll m.host m.options m.filename sites = .ok r ↔
      (∀ site ∈ sites, m.Creatable site) ∧
        r = (sites.filterMap m.construct?,
          sites.flatMap fun site => (m.rejection? site).toList ++ m.warnings site) := by
  induction sites generalizing r with
  | nil => simp [createAll, eq_comm]
  | cons site sites ih =>
      simp only [createAll_cons, bind_eq_ok_iff, setUp_eq_ok_iff, ih, List.forall_mem_cons,
        filterMap_cons_eq_append, List.flatMap_cons]
      constructor
      · rintro ⟨_, ⟨hsite, rfl⟩, _, ⟨hsites, rfl⟩, hr⟩
        exact ⟨⟨hsite, hsites⟩, (Except.ok.inj hr).symm⟩
      · rintro ⟨⟨hsite, hsites⟩, rfl⟩
        exact ⟨_, ⟨hsite, rfl⟩, _, ⟨hsites, rfl⟩, rfl⟩

def constructed : List ProcessedSite := m.callSites.filterMap m.construct?

def evaluated : Entries Point × Evaluator :=
  Evaluator.values.run (moduleBindings m.source m.constructed)

def builds : List Build := buildsFrom m.evaluated.1 m.constructed m.evaluated.2

/-- What comes up on the way is reported, all of it. -/
structure Handled : Prop where
  creatable : ∀ site ∈ m.callSites, m.Creatable site
  reported : ∀ b ∈ m.builds, b.Reported

def diagnostics : List Diagnostic :=
  m.found.filterMap m.unreadable? ++
    m.callSites.flatMap (fun site => (m.rejection? site).toList ++ m.warnings site) ++
    m.builds.filterMap Build.report?

def result (mode : Mode) : Extraction where
  code := String.ofList (splice 0 m.source (replacements (m.builds.map (·.finished mode))))
  rules := (m.builds.filterMap Build.rules?).foldl Entries.setAll []
  diagnostics := m.diagnostics
  dependencies := (m.builds.map (·.finished mode)).flatMap fun item =>
    item.processor.dependencies.map (·.source)
  sites := m.builds.map (·.finished mode)

variable {m}

theorem read_eq_ok {raw : RawSite × Nat} {site : CallSite} (h : m.read raw = .ok site) :
    site.span = raw.1.span ∧ site.loc = location m.source m.filename raw.1.span ∧
      site.idx = raw.2 ∧
      ∃ head, readHeadText raw.1.head.toList = .ok head ∧
        site.params = paramsOf m.source m.filename m.imports raw.1 head := by
  simp only [read, callSiteOf] at h
  split at h
  · rename_i head hhead
    obtain rfl := Except.ok.inj h
    exact ⟨rfl, rfl, rfl, head, hhead, rfl⟩
  · simp at h

theorem mem_callSites_iff {site : CallSite} :
    site ∈ m.callSites ↔ ∃ raw ∈ m.raws.zipIdx, m.read raw = .ok site := by
  simp only [callSites, found, List.filterMap_map, List.mem_filterMap, Function.comp_apply]
  refine exists_congr fun raw => and_congr_right fun _ => ?_
  cases m.read raw <;> simp [Except.toOption]

theorem construct?_eq_some_iff {site : CallSite} {item : ProcessedSite} :
    m.construct? site = some item ↔ item.site = site ∧ (m.create site).1 = .ok item.processor := by
  obtain ⟨site', p⟩ := item
  simp only [construct?, Option.map_eq_some_iff, ProcessedSite.mk.injEq]
  cases (m.create site).1 <;> simp [Except.toOption, eq_comm, and_comm]

theorem mem_constructed_iff {item : ProcessedSite} :
    item ∈ m.constructed ↔
      item.site ∈ m.callSites ∧ (m.create item.site).1 = .ok item.processor := by
  simp only [constructed, List.mem_filterMap, construct?_eq_some_iff]
  constructor
  · rintro ⟨_, hmem, rfl, h⟩
    exact ⟨hmem, h⟩
  · rintro ⟨hmem, h⟩
    exact ⟨_, hmem, rfl, h⟩

theorem fresh_of_mem_constructed {item : ProcessedSite} (h : item ∈ m.constructed) :
    item.processor.Fresh := by
  obtain ⟨_, _, _, _, -, -, hp⟩ := Processor.create_eq_ok (mem_constructed_iff.1 h).2
  exact hp ▸ Processor.wrapping_fresh _ _ _ _

theorem map_item_builds : m.builds.map Build.item = m.constructed := map_item_buildsFrom _ _ _

def finish (m : Module) (mode : Mode) :
    Except Failure (List ProcessedSite × List Rules × List Diagnostic) := do
  let created ← createAll m.host m.options m.filename m.callSites
  let known := Evaluator.values.run (moduleBindings m.source created.1)
  let built ← finishAll mode known.1 created.1 known.2
  return (built.1, built.2.1, m.found.filterMap m.unreadable? ++ created.2 ++ built.2.2)

theorem finish_eq_ok_iff {mode : Mode} {r : List ProcessedSite × List Rules × List Diagnostic} :
    m.finish mode = .ok r ↔
      m.Handled ∧
        r = (m.builds.map (·.finished mode), m.builds.filterMap Build.rules?, m.diagnostics) := by
  have hnew : ∀ item ∈ m.constructed, item.processor.replacement = none :=
    fun item hi => (fresh_of_mem_constructed hi).replacement
  simp only [finish, bind_eq_ok_iff, createAll_eq_ok_iff]
  constructor
  · rintro ⟨_, ⟨hcreate, rfl⟩, built, hbuilt, hr⟩
    obtain ⟨hreport, rfl⟩ := (finishAll_eq_ok_iff hnew).1 hbuilt
    exact ⟨⟨hcreate, hreport⟩, (Except.ok.inj hr).symm⟩
  · rintro ⟨⟨hcreate, hreport⟩, rfl⟩
    exact ⟨_, ⟨hcreate, rfl⟩, _, (finishAll_eq_ok_iff hnew).2 ⟨hreport, rfl⟩, rfl⟩

theorem item_mem_of_mem_builds {b : Build} (h : b ∈ m.builds) : b.item ∈ m.constructed := by
  rw [← map_item_builds]
  exact List.mem_map_of_mem h

end Module

theorem moduleOf?_eq_some_iff {t : Host} {options : Options} {filename : Option String}
    {text : String} {m : Module} :
    moduleOf? t options filename text = some m ↔
      parseImports text.toList = .ok m.imports ∧
        findSites text.toList options.tag.toList = .ok m.raws ∧ m.host = t ∧ m.options = options ∧
        m.filename = filename ∧ m.source = text.toList := by
  obtain ⟨t', options', filename', source, imports, raws⟩ := m
  simp only [moduleOf?]
  cases parseImports text.toList <;> cases findSites text.toList options.tag.toList <;>
    simp [Except.toOption, eq_comm]
  constructor
  · rintro ⟨rfl, rfl, rfl, rfl, rfl, rfl⟩
    exact ⟨rfl, rfl, rfl, rfl, rfl, rfl⟩
  · rintro ⟨rfl, rfl, rfl, rfl, rfl, rfl⟩
    exact ⟨rfl, rfl, rfl, rfl, rfl, rfl⟩

theorem extract_eq_finish {t : Host} {options : Options} {filename : Option String} {text : String}
    {m : Module} (hm : moduleOf? t options filename text = some m) (mode : Mode) :
    extract t options mode filename text =
      match m.finish mode with
      | .error failure => .error (.site failure)
      | .ok (items, rules, diagnostics) =>
        .ok {
          code := String.ofList (splice 0 m.source (replacements items))
          rules := rules.foldl Entries.setAll []
          diagnostics
          dependencies := items.flatMap fun item => item.processor.dependencies.map (·.source)
          sites := items } := by
  obtain ⟨himports, hraws, rfl, rfl, rfl, hsource⟩ := moduleOf?_eq_some_iff.1 hm
  rw [← hsource] at himports hraws
  have hfound : findCallSites m.source m.options.tag m.filename m.imports = .ok m.found := by
    simp only [findCallSites, hraws]
    rfl
  simp only [extract, ← hsource, himports, hfound]
  rfl

/-- An extraction of a module that can be read returns when all that comes up on the way is
reported, and then its result is that of its stages. -/
theorem extract_eq_ok_iff {t : Host} {options : Options} {mode : Mode} {filename : Option String}
    {text : String} {m : Module} (hm : moduleOf? t options filename text = some m)
    {result : Extraction} :
    extract t options mode filename text = .ok result ↔ m.Handled ∧ result = m.result mode := by
  have hfinish (r : List ProcessedSite × List Rules × List Diagnostic) : m.finish mode = .ok r ↔
      m.Handled ∧ r = (m.builds.map (·.finished mode), m.builds.filterMap Build.rules?, m.diagnostics) :=
    Module.finish_eq_ok_iff
  rw [extract_eq_finish hm]
  cases hm : m.finish mode with
  | error failure =>
      have hno : ¬ m.Handled := fun h => by simpa [hm] using (hfinish _).2 ⟨h, rfl⟩
      simp [hno]
  | ok r =>
      obtain ⟨hall, rfl⟩ := (hfinish r).1 hm
      simp [hall, Module.result, eq_comm]

theorem extract_cases {t : Host} {options : Options} {mode : Mode} {filename : Option String}
    {text : String} {result : Extraction} (h : extract t options mode filename text = .ok result) :
    (∃ e, findSites text.toList options.tag.toList = .error e ∧
      result = { code := text, diagnostics := [parseDiagnostic filename (.ofScan text.toList e)] }) ∨
    ∃ m, moduleOf? t options filename text = some m ∧ m.Handled ∧ result = m.result mode := by
  cases himports : parseImports text.toList with
  | error e => simp [extract, himports] at h
  | ok imports =>
      cases hraws : findSites text.toList options.tag.toList with
      | error e =>
          refine .inl ⟨e, rfl, ?_⟩
          simp only [extract, himports, findCallSites, hraws] at h
          split_ifs at h
          exact (Except.ok.inj h).symm
      | ok raws =>
          let m : Module := ⟨t, options, filename, text.toList, imports, raws⟩
          have hm : moduleOf? t options filename text = some m :=
            moduleOf?_eq_some_iff.2 ⟨himports, hraws, rfl, rfl, rfl, rfl⟩
          exact .inr ⟨m, hm, (extract_eq_ok_iff hm).1 h⟩

end CssExtract.Styled
