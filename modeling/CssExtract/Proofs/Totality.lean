import CssExtract.Proofs.Builds
import CssExtract.Proofs.ErrorPlaces
import CssExtract.Proofs.ManifestSearch

namespace CssExtract

theorem mapM_isOk_iff {ε α β : Type} {f : α → Except ε β} {l : List α} :
    (∃ bs, l.mapM f = .ok bs) ↔ ∀ a ∈ l, ∃ b, f a = .ok b := by
  induction l with
  | nil => simp [pure, Except.pure]
  | cons a l ih =>
      rw [List.forall_mem_cons, ← ih, List.mapM_cons]
      cases f a with
      | error e => simp [bind, Except.bind]
      | ok b => cases l.mapM f <;> simp [bind, Except.bind, pure, Except.pure]

theorem bind_isOk_iff {ε α β : Type} {x : Except ε α} {f : α → Except ε β}
    (hf : ∀ a, ∃ b, f a = .ok b) : (∃ b, (x >>= f) = .ok b) ↔ ∃ a, x = .ok a := by
  cases x with
  | error e => simp [bind, Except.bind]
  | ok a => simpa [bind, Except.bind] using hf a

namespace Script

open Text

def clauseParts (clause : List Char) : List (List Char) :=
  let outside := match cutBraces? clause with
    | some (before, _, after) => before ++ after
    | none => clause
  ((splitOn ',' outside).map trim).filter (!·.isEmpty)

def HasLocalName (part : List Char) : Prop :=
  part.head? = some '*' → (afterFirst? " as ".toList part).isSome

theorem localName_isOk_iff {part : List Char} :
    (∃ name, (if part.head? = some '*' then
      match afterFirst? " as ".toList part with
        | some name => Except.ok (trim name)
        | none => Except.error ImportError.unnamedNamespace
      else Except.ok part) = .ok name) ↔ HasLocalName part := by
  simp only [HasLocalName]
  split_ifs with hstar
  · cases afterFirst? " as ".toList part <;> simp [hstar]
  · simp [hstar]

theorem clauseNames_isOk_iff {clause : List Char} :
    (∃ names, clauseNames clause = .ok names) ↔ ∀ part ∈ clauseParts clause, HasLocalName part := by
  simp only [← localName_isOk_iff, ← mapM_isOk_iff, clauseNames, clauseParts]
  cases cutBraces? clause <;> exact bind_isOk_iff fun _ => ⟨_, rfl⟩

theorem parseImports_isOk_iff {s : List Char} :
    (∃ imports, parseImports s = .ok imports) ↔
      ∀ declaration ∈ allMatches import? s, ∀ part ∈ clauseParts declaration.1, HasLocalName part := by
  simp only [← clauseNames_isOk_iff]
  have hone (declaration : List Char × List Char) :
      (∃ names, clauseNames declaration.1 = .ok names) ↔
        ∃ pair, (clauseNames declaration.1).map (·, declaration.2) = .ok pair := by
    cases clauseNames declaration.1 <;> simp [Except.map]
  simp only [hone, ← mapM_isOk_iff, parseImports]
  exact bind_isOk_iff fun _ => ⟨_, rfl⟩

end Script

namespace Package

variable {t : Tree} {specifier : String} {filename : Option String} {extensions : List String}
  {e : ResolutionError}

theorem findManifest?_self {name : String} (h : filename.filter (!·.isEmpty) = some name) :
    findManifest? t "." filename extensions =
      (findUp? t (t.absolutePath name) manifestName).mapError .access := by
  simp only [findManifest?, h]
  rfl

inductive Seeks (t : Tree) (specifier : String) (filename : Option String) (extensions : List String) :
    Path → Prop
  | self {name : String} (specifier_eq : specifier = ".") (named : filename.filter (!·.isEmpty) = some name) :
      Seeks t specifier filename extensions (t.absolutePath name)
  | imported {file : Path} (other : specifier = "." → filename.filter (!·.isEmpty) = none)
      (leads : resolveModule t specifier (importBase filename) extensions = .ok file) :
      Seeks t specifier filename extensions file

inductive LookupFails (t : Tree) (specifier : String) (filename : Option String) (extensions : List String) :
    ResolutionError → Prop
  | resolution {e : ResolutionError} (other : specifier = "." → filename.filter (!·.isEmpty) = none)
      (breaks : BreaksOff t specifier (importBase filename) extensions e) :
      LookupFails t specifier filename extensions e
  | search {file : Path} {fault : Tree.Fault} (seeks : Seeks t specifier filename extensions file)
      (refused : SearchRefused t file fault) : LookupFails t specifier filename extensions (.access fault)

theorem findManifest?_imported (other : specifier = "." → filename.filter (!·.isEmpty) = none) :
    findManifest? t specifier filename extensions =
      match resolveModule t specifier (importBase filename) extensions with
      | .ok found => (findUp? t found manifestName).mapError .access
      | .error (.notFound ..) => .ok none
      | .error e => .error e := by
  have hnone : (filename.filter (!·.isEmpty)).filter (fun _ => decide (specifier = ".")) = none := by
    by_cases hself : specifier = "."
    · rw [other hself]
      rfl
    · simp [hself]
  rcases hresolve : resolveModule t specifier (importBase filename) extensions with ⟨_ | _ | _⟩ | _ <;>
    simp only [findManifest?, hnone, hresolve]

theorem findUp?_mapError_iff {p : Path} : (findUp? t p manifestName).mapError .access = .error e ↔
    ∃ fault, SearchRefused t p fault ∧ e = .access fault := by
  simp only [← findUp?_eq_error_iff]
  cases findUp? t p manifestName <;> simp [Except.mapError, eq_comm]

theorem findManifest?_eq_error_iff :
    findManifest? t specifier filename extensions = .error e ↔ LookupFails t specifier filename extensions e := by
  by_cases hother : specifier = "." → filename.filter (!·.isEmpty) = none
  · rw [findManifest?_imported hother]
    constructor
    · rcases hr : resolveModule t specifier (importBase filename) extensions with ⟨_ | _ | _⟩ | file
      · simp
      · rintro ⟨⟩
        exact .resolution hother (breaksOff_iff.2 ⟨hr, by simp⟩)
      · rintro ⟨⟩
        exact .resolution hother (breaksOff_iff.2 ⟨hr, by simp⟩)
      · intro h
        obtain ⟨fault, hrefused, rfl⟩ := findUp?_mapError_iff.1 h
        exact .search (.imported hother hr) hrefused
    · rintro (⟨-, hbreaks⟩ | ⟨⟨rfl, hnamed⟩ | ⟨-, hleads⟩, hrefused⟩)
      · obtain ⟨hr, hfound⟩ := breaksOff_iff.1 hbreaks
        rw [hr]
        cases e with
        | notFound missing from_ => exact absurd rfl (hfound missing from_)
        | _ => rfl
      · simp [hother rfl] at hnamed
      · rw [hleads]
        exact findUp?_mapError_iff.2 ⟨_, hrefused, rfl⟩
  · obtain ⟨rfl, hnamed⟩ := Classical.not_imp.1 hother
    obtain ⟨name, hname⟩ := Option.ne_none_iff_exists'.1 hnamed
    rw [findManifest?_self hname, findUp?_mapError_iff]
    constructor
    · rintro ⟨fault, hrefused, rfl⟩
      exact .search (.self rfl hname) hrefused
    · rintro (⟨hother', -⟩ | ⟨⟨-, hname'⟩ | ⟨hother', -⟩, hrefused⟩)
      · exact absurd hother' hother
      · obtain rfl := Option.some.inj (hname.symm.trans hname')
        exact ⟨_, hrefused, rfl⟩
      · exact absurd hother' hother

end Package

namespace Styled

open Package Script Text

variable {t : Host} {i : Importer} {own : Option Path} {source specifier : String}
  {failure : Failure} {ws : List Warning} {specifiers : List String}

def Importer.selfManifest (t : Tree) (i : Importer) : Except Failure (Option Path) :=
  match i.filename.filter (!·.isEmpty) with
  | some name => (findUp? t (t.absolutePath name) manifestName).mapError .access
  | none => .ok none

def Importer.maskVerdict (t : Host) (i : Importer) (specifier : String) (manifest : Path) (mask : String) :
    Except Failure Bool :=
  match resolveModule t.toTree specifier (i.directory t.toTree) i.extensions with
  | .ok file => (matchesMask t.globmatch file.toString manifest.parent.toString mask).mapError .matching
  | .error (.notFound ..) => .ok false
  | .error e => .error (.ofResolution e)

/-- Whether an import is styled, without the warnings. -/
def Importer.verdict (t : Host) (i : Importer) (own : Option Path) (specifier : String) :
    Except Failure Bool := do
  let found ← (findManifest? t.toTree specifier i.filename i.extensions).mapError .ofResolution
  match found.or own with
  | none => return false
  | some manifest =>
    match readMask t.toTree manifest with
    | .error _ => return false
    | .ok none => return own = some manifest
    | .ok (some mask) => if mask.isEmpty then return false else i.maskVerdict t specifier manifest mask

inductive Importer.MaskFails (t : Host) (i : Importer) (specifier : String) (manifest : Path) (mask : String) :
    Failure → Prop
  | file {e : ResolutionError} (breaks : BreaksOff t.toTree specifier (i.directory t.toTree) i.extensions e) :
      MaskFails t i specifier manifest mask (.ofResolution e)
  | matching {file : Path} {fault : Glob.Fault}
      (leads : resolveModule t.toTree specifier (i.directory t.toTree) i.extensions = .ok file)
      (fails : matchesMask t.globmatch file.toString manifest.parent.toString mask = .error fault) :
      MaskFails t i specifier manifest mask (.matching fault)

/-- It cannot be told whether an import is styled, for its manifest or for the mask of that. -/
inductive Importer.Fails (t : Host) (i : Importer) (own : Option Path) (specifier : String) : Failure → Prop
  | manifest {e : ResolutionError} (lookup : LookupFails t.toTree specifier i.filename i.extensions e) :
      Fails t i own specifier (.ofResolution e)
  | mask {found : Option Path} {manifest : Path} {mask : String} {failure : Failure}
      (lookup : findManifest? t.toTree specifier i.filename i.extensions = .ok found)
      (owner : found.or own = some manifest) (read : readMask t.toTree manifest = .ok (some mask))
      (nonempty : mask ≠ "") (fails : i.MaskFails t specifier manifest mask failure) :
      Fails t i own specifier failure

/-- Of specifiers in order, it cannot be told of one, and none before it is found to be styled. -/
inductive Importer.FailsAmong (t : Host) (i : Importer) (specifiers : List String) : Failure → Prop
  | own {name : String} {fault : Tree.Fault} (nonempty : specifiers ≠ [])
      (named : i.filename.filter (!·.isEmpty) = some name)
      (refused : SearchRefused t.toTree (t.absolutePath name) fault) : FailsAmong t i specifiers (.access fault)
  | specifier {own : Option Path} {before after : List String} {specifier : String} {failure : Failure}
      (search : i.selfManifest t.toTree = .ok own) (split : specifiers = before ++ specifier :: after)
      (unstyled : ∀ other ∈ before, i.verdict t own other = .ok false)
      (fails : i.Fails t own specifier failure) : FailsAmong t i specifiers failure

theorem exec_ownManifest? : exec (i.ownManifest? t.toTree) ws = (i.selfManifest t.toTree, ws) := by
  simp only [Importer.ownManifest?, Importer.selfManifest]
  cases hname : i.filename.filter (!·.isEmpty) with
  | none => rfl
  | some name =>
      simp only [exec_liftResolution, findManifest?_self hname]
      cases findUp? t.toTree (t.absolutePath name) manifestName <;> rfl

theorem selfManifest_eq_error_iff : i.selfManifest t.toTree = .error failure ↔
    ∃ name fault, i.filename.filter (!·.isEmpty) = some name ∧
      SearchRefused t.toTree (t.absolutePath name) fault ∧ failure = .access fault := by
  simp only [Importer.selfManifest, ← findUp?_eq_error_iff]
  cases i.filename.filter (!·.isEmpty) with
  | none => simp
  | some name =>
      simp only [Option.some.injEq, exists_and_left, exists_eq_left']
      cases findUp? t.toTree (t.absolutePath name) manifestName <;> simp [Except.mapError, eq_comm]

theorem exec_isStyledImport_fst (ws : List Warning) :
    (exec (isStyledImport t i own source specifier) ws).1 = i.verdict t own specifier := by
  simp only [isStyledImport, Importer.verdict, exec_bind, exec_liftResolution]
  cases findManifest? t.toTree specifier i.filename i.extensions with
  | error e => rfl
  | ok found =>
      simp only [Except.mapError, bind, Except.bind]
      cases found.or own with
      | none => rfl
      | some manifest =>
          rcases hread : readMask t.toTree manifest with e | (_ | mask)
          · simp only [hread]
            rfl
          · simp only [hread]
            rfl
          · simp only [hread]
            split_ifs
            · rfl
            · rw [Importer.maskVerdict]
              rcases resolveModule t.toTree specifier (i.directory t.toTree) i.extensions with ⟨_ | _ | _⟩ | file
              · rfl
              · rfl
              · rfl
              · simp only [checkMask]
                cases matchesMask t.globmatch file.toString manifest.parent.toString mask <;> rfl

theorem maskVerdict_eq_error_iff {manifest : Path} {mask : String} :
    i.maskVerdict t specifier manifest mask = .error failure ↔ i.MaskFails t specifier manifest mask failure := by
  rw [Importer.maskVerdict]
  constructor
  · rcases hr : resolveModule t.toTree specifier (i.directory t.toTree) i.extensions with ⟨_ | _ | _⟩ | file
    · simp
    · rintro ⟨⟩
      exact .file (breaksOff_iff.2 ⟨hr, by simp⟩)
    · rintro ⟨⟩
      exact .file (breaksOff_iff.2 ⟨hr, by simp⟩)
    · cases hm : matchesMask t.globmatch file.toString manifest.parent.toString mask with
      | error fault =>
          simp only [hm]
          rintro ⟨⟩
          exact .matching hr hm
      | ok covered => simp [hm, Except.mapError]
  · rintro (hbreaks | ⟨hleads, hfails⟩)
    · obtain ⟨hr, hfound⟩ := breaksOff_iff.1 hbreaks
      rw [hr]
      split <;> simp_all
    · rw [hleads]
      dsimp only
      rw [hfails]
      rfl

theorem verdict_eq_error_iff :
    i.verdict t own specifier = .error failure ↔ i.Fails t own specifier failure := by
  rw [Importer.verdict]
  constructor
  · cases hlookup : findManifest? t.toTree specifier i.filename i.extensions with
    | error e =>
        rintro ⟨⟩
        exact .manifest (findManifest?_eq_error_iff.1 hlookup)
    | ok found =>
        simp only [Except.mapError, bind, Except.bind]
        cases howner : found.or own with
        | none => simp [pure, Except.pure]
        | some manifest =>
            rcases hread : readMask t.toTree manifest with e | (_ | mask)
            · simp [hread, pure, Except.pure]
            · simp [hread, pure, Except.pure]
            · simp only [hread]
              split_ifs with hempty
              · simp [pure, Except.pure]
              · intro h
                exact .mask hlookup howner hread (by simpa using hempty) (maskVerdict_eq_error_iff.1 h)
  · rintro (hlookup | ⟨hlookup, howner, hread, hnonempty, hfails⟩)
    · rw [findManifest?_eq_error_iff.2 hlookup]
      rfl
    · simp only [hlookup, Except.mapError, bind, Except.bind, howner, hread, String.isEmpty_iff, hnonempty,
        if_false]
      exact maskVerdict_eq_error_iff.2 hfails

theorem exec_anyStyled_fst (specifiers : List String) (ws : List Warning) :
    (exec (anyStyled t i own source specifiers) ws).1 =
      (specifiers.findM? (i.verdict t own)).map Option.isSome := by
  induction specifiers generalizing ws with
  | nil => rfl
  | cons specifier specifiers ih =>
      rw [anyStyled, exec_bind, List.findM?, ← exec_isStyledImport_fst ws]
      generalize exec (isStyledImport t i own source specifier) ws = out
      obtain ⟨_ | _ | _, ws'⟩ := out
      · rfl
      · exact ih ws'
      · rfl

theorem exec_isForeign_fst (h : specifiers ≠ []) (ws : List Warning) :
    (exec (isForeign t i source specifiers) ws).1 =
      (i.selfManifest t.toTree).bind fun own => (specifiers.findM? (i.verdict t own)).map (!·.isSome) := by
  have hempty : specifiers.isEmpty = false := by simpa using h
  simp only [isForeign, hempty, Bool.false_eq_true, if_false, exec_bind, exec_ownManifest?]
  cases i.selfManifest t.toTree with
  | error failure => rfl
  | ok own =>
      have hany : (exec (anyStyled t i own source specifiers) ws).1 = _ := exec_anyStyled_fst specifiers ws
      simp only [Except.bind]
      generalize exec (anyStyled t i own source specifiers) ws = out at hany
      obtain ⟨result, ws'⟩ := out
      obtain rfl : result = _ := hany
      cases specifiers.findM? (i.verdict t own) <;> rfl

theorem exec_isForeign_eq_error_iff :
    (exec (isForeign t i source specifiers) ws).1 = .error failure ↔ i.FailsAmong t specifiers failure := by
  by_cases hne : specifiers = []
  · subst hne
    constructor
    · simp [isForeign]
    · rintro (hne | ⟨-, hsplit, -⟩)
      · exact absurd rfl hne
      · simp at hsplit
  · rw [exec_isForeign_fst hne]
    constructor
    · intro h
      cases hown : i.selfManifest t.toTree with
      | error failure' =>
          obtain ⟨name, fault, hname, hrefused, rfl⟩ := selfManifest_eq_error_iff.1 hown
          obtain rfl : Failure.access fault = failure := Except.error.inj (hown ▸ h)
          exact .own hne hname hrefused
      | ok own =>
          rw [hown, Except.bind, map_eq_error_iff, findM?_eq_error_iff] at h
          obtain ⟨before, specifier, after, hsplit, hbefore, hfails⟩ := h
          exact .specifier hown hsplit hbefore (verdict_eq_error_iff.1 hfails)
    · rintro (⟨-, hname, hrefused⟩ | ⟨hown, hsplit, hbefore, hfails⟩)
      · rw [selfManifest_eq_error_iff.2 ⟨_, _, hname, hrefused, rfl⟩]
        rfl
      · rw [hown, Except.bind, map_eq_error_iff, findM?_eq_error_iff]
        exact ⟨_, _, _, hsplit, hbefore, verdict_eq_error_iff.2 hfails⟩

theorem exec_componentOf_of_isForeign {s : SiteContext} {name : String} {importedFrom : List String}
    (h : (exec (isForeign t s.importer source importedFrom) ws).1 = .error failure) :
    (exec (componentOf t s (.call [⟨source, .identifier name, .lazy importedFrom⟩])) ws).1 =
      .error failure := by
  simp only [componentOf]
  exact exec_bind_fst_of_error h

theorem componentOf_eq_error {s : SiteContext} {operation : Param}
    (h : (exec (componentOf t s operation) ws).1 = .error failure) :
    failure.Reported ∨ ∃ source name importedFrom,
      operation = .call [⟨source, .identifier name, .lazy importedFrom⟩] ∧
        s.importer.FailsAmong t importedFrom failure := by
  unfold componentOf at h
  split at h
  · simp at h
  · rename_i argument
    obtain ⟨source, node, knowledge⟩ := argument
    split at h
    · simp at h
    · simp at h
    · rename_i importedFrom name hknowledge hnode
      obtain rfl : knowledge = .lazy importedFrom := hknowledge
      obtain rfl : node = .identifier name := hnode
      rw [exec_bind] at h
      have hforeign (failure : Failure) :
          (exec (isForeign t s.importer source importedFrom) ws).1 = .error failure ↔
            s.importer.FailsAmong t importedFrom failure := exec_isForeign_eq_error_iff
      generalize exec (isForeign t s.importer source importedFrom) ws = out at h hforeign
      obtain ⟨result, ws'⟩ := out
      cases result with
      | error failure' =>
          obtain rfl : failure' = failure := by simpa using h
          exact .inr ⟨source, name, importedFrom, rfl, (hforeign failure').1 rfl⟩
      | ok foreign => cases foreign <;> simp at h
    · simp at h
      exact .inl ⟨_, h.symm⟩
  · simp at h
    exact .inl ⟨_, h.symm⟩

theorem Failure.ofResolution_not_reported (e : ResolutionError) : ¬ (Failure.ofResolution e).Reported := by
  rintro ⟨error, herror⟩
  cases e <;> simp [Failure.ofResolution] at herror

theorem Importer.FailsAmong.not_reported (h : i.FailsAmong t specifiers failure) : ¬ failure.Reported := by
  rcases h with _ | ⟨-, -, -, hlookup | ⟨-, -, -, -, hbreaks | _⟩⟩
  · rintro ⟨error, herror⟩
    simp at herror
  · exact Failure.ofResolution_not_reported _
  · exact Failure.ofResolution_not_reported _
  · rintro ⟨error, herror⟩
    simp at herror

/-- The site wraps a name of which only the specifiers it is imported from are known. -/
def CallSite.Wraps (site : CallSite) (source name : String) (importedFrom : List String) : Prop :=
  ∃ node template,
    site.params = [.callee node, .call [⟨source, .identifier name, .lazy importedFrom⟩], .template template]

namespace Module

variable {m : Module} {site : CallSite}

def importer (m : Module) : Importer := ⟨m.filename, m.options.extensions⟩

theorem creatable_iff : m.Creatable site ↔ ∀ source name importedFrom,
    site.Wraps source name importedFrom → ∀ failure, ¬ m.importer.FailsAmong m.host importedFrom failure := by
  constructor
  · rintro hcreatable source name importedFrom ⟨node, template, hparams⟩ failure hfails
    have hforeign : (exec (isForeign m.host m.importer source importedFrom) []).1 = .error failure :=
      exec_isForeign_eq_error_iff.2 hfails
    have hcomponent : ((componentOf m.host (contextOf m.options m.filename site)
        (.call [⟨source, .identifier name, .lazy importedFrom⟩])).run.run []).1 = .error failure :=
      exec_componentOf_of_isForeign hforeign
    have hcreate : (m.create site).1 = .error (.failed failure) := by
      rw [create, hparams, Processor.create_operation (.inl rfl), hcomponent]
    exact hfails.not_reported (hcreatable _ hcreate)
  · intro hfree failure hcreate
    rw [create] at hcreate
    obtain hc | hc | ⟨hc, -⟩ | ⟨node, operation, template, hparams, hc⟩ :=
      Processor.create_cases m.host (contextOf m.options m.filename site) site.params
    · simp [hc] at hcreate
    · simp [hc, misused] at hcreate
      exact ⟨_, hcreate.symm⟩
    · simp [hc] at hcreate
    · simp only [hc] at hcreate
      split at hcreate
      · rename_i failure' hcomponent
        obtain rfl : failure' = failure := by simpa using hcreate
        obtain hreported | ⟨source, name, importedFrom, rfl, hfails⟩ := componentOf_eq_error hcomponent
        · exact hreported
        · exact absurd hfails (hfree source name importedFrom ⟨node, template, hparams⟩ _)
      · simp at hcreate

theorem handled_iff : m.Handled ↔ ∀ site ∈ m.callSites, m.Creatable site :=
  ⟨fun h => h.creatable, fun h => ⟨h, fun _ hb => reported_of_mem_builds hb⟩⟩

end Module

/-- An extraction returns if and only if every `*` of an import clause comes with a local name and it can be
told of every wrapped name, from the specifiers it is imported from, whether it is styled. -/
theorem extract_returns_iff (t : Host) {options : Options} (mode : Mode) (filename : Option String)
    (text : String) (htag : options.tag ≠ "") :
    (∃ result, extract t options mode filename text = .ok result) ↔
      (∀ declaration ∈ allMatches import? text.toList,
        ∀ part ∈ clauseParts declaration.1, HasLocalName part) ∧
      ∀ m, moduleOf? t options filename text = some m → ∀ site ∈ m.callSites,
        ∀ source name importedFrom, site.Wraps source name importedFrom →
          ∀ failure, ¬ m.importer.FailsAmong m.host importedFrom failure := by
  rw [← parseImports_isOk_iff]
  cases himports : parseImports text.toList with
  | error e => simp [extract, himports]
  | ok imports =>
      simp only [Except.ok.injEq, exists_eq', true_and]
      cases hraws : findSites text.toList options.tag.toList with
      | error e =>
          have hm : moduleOf? t options filename text = none := by
            simp [moduleOf?, hraws, Except.toOption]
          have hends : (ParseError.ofScan text.toList e).cause ≠ .scan .endless := by
            have hcause := findSites_ne_endless (by simpa using htag) hraws
            simpa [ParseError.ofScan] using hcause
          simp [extract, himports, findCallSites, hraws, hm, hends]
      | ok raws =>
          have hm : moduleOf? t options filename text =
              some ⟨t, options, filename, text.toList, imports, raws⟩ :=
            moduleOf?_eq_some_iff.2 ⟨himports, hraws, rfl, rfl, rfl, rfl⟩
          simp only [extract_eq_ok_iff hm, hm, Option.some.injEq, forall_eq', exists_and_left,
            exists_eq, and_true, Module.handled_iff, Module.creatable_iff]

def missingCard : String := "import \x7b Card \x7d from './Card';\nconst A = styled(Card)`color: red;`;\n"

theorem missingCard_returns : ({} : Options).tag ≠ "" ∧
    ∃ m, moduleOf? {} {} none missingCard = some m ∧ m.callSites.length = 1 ∧ ∀ site ∈ m.callSites,
      ∀ source name importedFrom, site.Wraps source name importedFrom →
        ∀ failure, ¬ m.importer.FailsAmong m.host importedFrom failure := by
  have htag : ({} : Options).tag ≠ "" := by decide
  have hsites : (moduleOf? {} {} none missingCard).map (·.callSites.length) = some 1 := by decide +kernel
  obtain ⟨m, hm, hlength⟩ := Option.map_eq_some_iff.1 hsites
  have hreturns : (extract {} {} .runtime none missingCard).toOption.isSome := by decide +kernel
  have hresult : ∃ result, extract {} {} .runtime none missingCard = .ok result := by
    cases h : extract {} {} .runtime none missingCard with
    | error e => simp [h, Except.toOption] at hreturns
    | ok result => exact ⟨result, rfl⟩
  obtain ⟨-, hfree⟩ := (extract_returns_iff {} .runtime none missingCard htag).1 hresult
  exact ⟨htag, m, hm, hlength, hfree m hm⟩

example : (extract {} {} .runtime none "import R from '/';\nstyled(R)`a`;\n").toOption.isNone := by
  decide +kernel

def unspacedNamespace : String := "import *as ui from 'ui-kit';\nconst A = styled.div`color: red;`;\n"

theorem unspacedNamespace_not_extracted :
    ¬ ∃ result, extract {} {} .runtime none unspacedNamespace = .ok result := by
  have hnone : (extract {} {} .runtime none unspacedNamespace).toOption.isNone := by decide +kernel
  rintro ⟨result, h⟩
  simp [h, Except.toOption] at hnone

end Styled

end CssExtract
