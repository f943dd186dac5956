import CssExtract.Package.Resolution
import CssExtract.Proofs.Links

namespace CssExtract.Package

variable {t : Tree} {target : Path} {extensions : List String} {looks before after : List Look}

inductive Look
  | file (p : Path)
  /-- The manifest of a directory, which is no result but may tell where to look next. -/
  | manifest (p : Path)
  | unnamed

/-- What resolution ends with at a look, if it does. -/
def Look.settled? (t : Tree) : Look → Option (Except ResolutionError Path)
  | .file p =>
    match t.isFile p with
    | .ok true => some (.ok p)
    | .ok false => none
    | .error fault => some (.error (.access fault))
  | .manifest p =>
    match t.isFile p with
    | .ok _ => none
    | .error fault => some (.error (.access fault))
  | .unnamed => some (.error .invalidName)

def search (t : Tree) (looks : List Look) : Except ResolutionError (Option Path) :=
  match looks.findSome? (Look.settled? t) with
  | some result => result.map some
  | none => .ok none

def fileLooks (target : Path) (extensions : List String) : List Look :=
  .file target :: extensions.map fun extension => (target.addExtension? extension).elim .unnamed .file

def indexLooks (target : Path) (extensions : List String) : List Look :=
  extensions.map fun extension => .file (target.child ("index" ++ extension))

def mainLooks (t : Tree) (target : Path) (extensions : List String) : List Look :=
  match mainIn? t (target.child manifestName) with
  | some main => fileLooks (target.child main) extensions ++ indexLooks (target.child main) extensions
  | none => []

def directoryLooks (t : Tree) (target : Path) (extensions : List String) : List Look :=
  if t.holdsDirectory target then
    .manifest (target.child manifestName) ::
      (mainLooks t target extensions ++ indexLooks target extensions)
  else []

def targetLooks (t : Tree) (extensions : List String) (target : Path) : List Look :=
  fileLooks target extensions ++ directoryLooks t target extensions

theorem search_append : search t (before ++ after) = (do
    match ← search t before with
    | some found => return some found
    | none => search t after) := by
  simp only [search, List.findSome?_append]
  cases before.findSome? (Look.settled? t) with
  | none => rfl
  | some result => cases result <;> rfl

theorem search_append_of_missed (h : search t before = .ok none) :
    search t (before ++ after) = search t after := by
  rw [search_append, h]
  rfl

theorem search_cons (look : Look) (looks : List Look) : search t (look :: looks) = (do
    match ← search t [look] with
    | some found => return some found
    | none => search t looks) := by
  rw [← List.singleton_append, search_append]

theorem search_file (p : Path) :
    search t [.file p] = (checkFile t p).map fun found => if found then some p else none := by
  simp only [search, List.findSome?_singleton, Look.settled?, checkFile]
  rcases t.isFile p with fault | _ | _ <;> rfl

theorem search_manifest (p : Path) : search t [.manifest p] = (checkFile t p).map fun _ => none := by
  simp only [search, List.findSome?_singleton, Look.settled?, checkFile]
  cases t.isFile p <;> rfl

theorem search_eq_none_iff :
    search t looks = .ok none ↔ ∀ look ∈ looks, look.settled? t = none := by
  rw [search, ← List.findSome?_eq_none_iff]
  rcases looks.findSome? (Look.settled? t) with _ | _ | _ <;> simp [Except.map]

theorem search_eq_error_iff {e : ResolutionError} : search t looks = .error e ↔
    ∃ before look after, looks = before ++ look :: after ∧
      (∀ other ∈ before, other.settled? t = none) ∧ look.settled? t = some (.error e) := by
  have hfirst : search t looks = .error e ↔ looks.findSome? (Look.settled? t) = some (.error e) := by
    rw [search]
    rcases looks.findSome? (Look.settled? t) with _ | _ | _ <;> simp [Except.map]
  rw [hfirst, List.findSome?_eq_some_iff]
  simp only [and_comm]

theorem settled?_eq_ok_iff {look : Look} {p : Path} :
    look.settled? t = some (.ok p) ↔ look = .file p ∧ t.isFile p = .ok true := by
  cases look with
  | file q =>
      simp only [Look.settled?, Look.file.injEq]
      rcases hfile : t.isFile q with fault | _ | _
      · simp only [Option.some.injEq, reduceCtorEq, false_iff, not_and]
        rintro rfl
        simp [hfile]
      · simp only [reduceCtorEq, false_iff, not_and]
        rintro rfl
        simp [hfile]
      · simp only [Option.some.injEq, Except.ok.injEq, iff_self_and]
        rintro rfl
        exact hfile
  | manifest q => cases hfile : t.isFile q <;> simp [Look.settled?, hfile]
  | unnamed => simp [Look.settled?]

theorem search_eq_some_iff {p : Path} : search t looks = .ok (some p) ↔
    ∃ before after, looks = before ++ .file p :: after ∧
      (∀ other ∈ before, other.settled? t = none) ∧ t.isFile p = .ok true := by
  have hfirst : search t looks = .ok (some p) ↔ looks.findSome? (Look.settled? t) = some (.ok p) := by
    rw [search]
    rcases looks.findSome? (Look.settled? t) with _ | _ | _ <;> simp [Except.map]
  rw [hfirst, List.findSome?_eq_some_iff]
  simp only [settled?_eq_ok_iff]
  constructor
  · rintro ⟨before, look, after, hsplit, ⟨rfl, hfile⟩, hbefore⟩
    exact ⟨before, after, hsplit, hbefore, hfile⟩
  · rintro ⟨before, after, hsplit, hbefore, hfile⟩
    exact ⟨before, _, after, hsplit, ⟨rfl, hfile⟩, hbefore⟩

theorem withExtension?_eq (target : Path) (extensions : List String) :
    withExtension? t target extensions = search t (extensions.map fun extension =>
      (target.addExtension? extension).elim .unnamed .file) := by
  induction extensions with
  | nil => rfl
  | cons extension extensions ih =>
      rw [withExtension?, List.map_cons, search_cons]
      cases target.addExtension? extension with
      | none => rfl
      | some candidate =>
          simp only [Option.elim_some, search_file, ih]
          rcases checkFile t candidate with e | _ | _ <;> rfl

theorem asFile?_eq (target : Path) (extensions : List String) :
    asFile? t target extensions = search t (fileLooks target extensions) := by
  rw [asFile?, fileLooks, search_cons, search_file, withExtension?_eq]
  rcases checkFile t target with e | _ | _ <;> rfl

theorem index?_eq (target : Path) (extensions : List String) :
    index? t target extensions = search t (indexLooks target extensions) := by
  rw [index?, indexLooks]
  induction extensions with
  | nil => rfl
  | cons extension extensions ih =>
      rw [List.map_cons, List.map_cons, List.findM?, search_cons, search_file, ih]
      rcases checkFile t _ with e | _ | _ <;> rfl

theorem mainIn?_of_not_holdsFile {manifest : Path} (h : t.holdsFile manifest = false) :
    mainIn? t manifest = none := by
  have hread : manifest? t manifest = none := by
    rw [Tree.holdsFile] at h
    rw [manifest?, Tree.readText]
    cases t.access.withheld? manifest with
    | some reason => rfl
    | none =>
        cases hfind : t.find? manifest with
        | none => rfl
        | some found =>
            obtain ⟨place, _ | _ | _⟩ := found
            · simp [hfind] at h
            all_goals rfl
  rw [mainIn?, hread]

def Holds (t : Tree) (manifest : Path) (document : Eval.Value) : Prop :=
  ∃ text, t.readText manifest = .ok text ∧ Json.read text = .ok document

theorem manifest?_eq_some_iff {manifest : Path} {document : Eval.Value} :
    manifest? t manifest = some document ↔ Holds t manifest document := by
  rw [manifest?, Holds]
  cases t.readText manifest with
  | error fault => simp
  | ok text => cases hread : Json.read text <;> simp [Except.toOption, hread]

theorem mainIn?_eq_some_iff {manifest : Path} {main : String} : mainIn? t manifest = some main ↔
    main ≠ "" ∧ ∃ entries, Holds t manifest (.object entries) ∧
      Entries.get? "main" entries = some (.scalar (.string main)) := by
  simp only [mainIn?, ← manifest?_eq_some_iff]
  split
  · rename_i entries hmanifest
    split
    · rename_i text hget
      simp only [String.isEmpty_iff]
      constructor
      · intro h
        split_ifs at h with hempty
        obtain rfl := Option.some.inj h
        exact ⟨hempty, entries, hmanifest, hget⟩
      · rintro ⟨hnonempty, _, hmanifest', hget'⟩
        simp_all
    · rename_i hget
      constructor
      · simp
      · rintro ⟨-, _, hmanifest', hget'⟩
        simp_all
  · rename_i hmanifest
    constructor
    · simp
    · rintro ⟨-, entries, hmanifest', -⟩
      exact absurd hmanifest' (hmanifest entries)

theorem main?_eq (target : Path) : main? t target =
    (checkFile t (target.child manifestName)).map fun _ => mainIn? t (target.child manifestName) := by
  rw [main?]
  rcases hcheck : checkFile t (target.child manifestName) with e | _ | _
  · rfl
  · have hfile : t.isFile (target.child manifestName) = .ok false := by
      rw [checkFile] at hcheck
      cases hfile : t.isFile (target.child manifestName) <;> simp_all [Except.mapError]
    simp only [Except.map, mainIn?_of_not_holdsFile (Tree.isFile_eq_ok_iff.1 hfile).2]
    rfl
  · rfl

theorem asDirectory?_eq (h : t.access.refusal? target ≠ some .denied) (extensions : List String) :
    asDirectory? t target extensions = search t (directoryLooks t target extensions) := by
  have hdir : t.isDirectory target = .ok (t.holdsDirectory target) := Tree.isDirectory_eq_ok_iff.2 ⟨h, rfl⟩
  rw [asDirectory?, directoryLooks, hdir]
  cases t.holdsDirectory target with
  | false => rfl
  | true =>
      rw [if_pos rfl, search_cons, search_manifest, search_append, mainLooks, main?_eq]
      cases checkFile t (target.child manifestName) with
      | error e => rfl
      | ok found =>
          cases mainIn? t (target.child manifestName) with
          | none =>
              simp only [index?_eq]
              rfl
          | some main =>
              simp only [search_append, ← asFile?_eq, ← index?_eq, Except.mapError, Except.map, bind, Except.bind]
              rcases asFile? t (target.child main) extensions with e | _ | found
              · rfl
              · rcases index? t (target.child main) extensions with e | _ | found <;> rfl
              · rfl

/-- A target that is not refused as a file is not refused as a directory. -/
theorem load?_eq (target : Path) (extensions : List String) :
    load? t target extensions = search t (targetLooks t extensions target) := by
  rw [load?, targetLooks, search_append, ← asFile?_eq]
  rcases hfile : asFile? t target extensions with e | _ | found
  · rfl
  · rw [asFile?_eq, search_eq_none_iff] at hfile
    have htarget := hfile (.file target) List.mem_cons_self
    have hdenied : t.access.refusal? target ≠ some .denied := by
      intro hdenied
      have hcheck : t.isFile target = .error .denied := Tree.isFile_eq_error_iff.2 ⟨hdenied, rfl⟩
      simp [Look.settled?, hcheck] at htarget
    simp only [bind, Except.bind, asDirectory?_eq hdenied]
  · rfl

theorem loadFirst?_eq (targets : List Path) (extensions : List String) :
    loadFirst? t extensions targets = search t (targets.flatMap (targetLooks t extensions)) := by
  induction targets with
  | nil => rfl
  | cons target targets ih =>
      rw [List.flatMap_cons, search_append, ← load?_eq, ← ih]
      rfl

variable {specifier : String} {directory base : Path} {e : ResolutionError}

theorem resolveModule_of_resolve {fault : Tree.Fault} (h : t.resolve directory = .error fault) :
    resolveModule t specifier directory extensions = .error (.access fault) := by
  rw [resolveModule, h]
  rfl

def concluded (t : Tree) (missing : ResolutionError) :
    Except ResolutionError (Option Path) → Except ResolutionError Path
  | .ok (some found) => (t.resolve found).mapError .access
  | .ok none => .error missing
  | .error e => .error e

/-- All names that a specifier in a directory may stand for are looked at in order. -/
theorem resolveModule_eq (h : t.resolve directory = .ok base) :
    resolveModule t specifier directory extensions = concluded t (.notFound specifier base.toString)
      (search t ((targets base specifier).flatMap (targetLooks t extensions))) := by
  rw [resolveModule, h, ← loadFirst?_eq]
  simp only [Except.mapError, bind, Except.bind]
  rcases loadFirst? t extensions (targets base specifier) with e | _ | found <;> rfl

/-- Resolution ends neither with a file nor by finding none. -/
inductive BreaksOff (t : Tree) (specifier : String) (directory : Path) (extensions : List String) :
    ResolutionError → Prop
  | start {fault : Tree.Fault} (refused : t.resolve directory = .error fault) :
      BreaksOff t specifier directory extensions (.access fault)
  | look {base : Path} {before after : List Look} {look : Look} {e : ResolutionError}
      (start : t.resolve directory = .ok base)
      (split : (targets base specifier).flatMap (targetLooks t extensions) = before ++ look :: after)
      (missed : ∀ other ∈ before, other.settled? t = none) (broken : look.settled? t = some (.error e)) :
      BreaksOff t specifier directory extensions e

theorem settled?_ne_notFound {look : Look} {missing from_ : String} :
    look.settled? t ≠ some (.error (.notFound missing from_)) := by
  cases look with
  | file p => rcases hfile : t.isFile p with fault | _ | _ <;> simp [Look.settled?, hfile]
  | manifest p => cases hfile : t.isFile p <;> simp [Look.settled?, hfile]
  | unnamed => simp [Look.settled?]

theorem breaksOff_iff : BreaksOff t specifier directory extensions e ↔
    resolveModule t specifier directory extensions = .error e ∧ ∀ missing from_, e ≠ .notFound missing from_ := by
  cases hbase : t.resolve directory with
  | error fault =>
      rw [resolveModule_of_resolve hbase]
      constructor
      · rintro (hfault | hbase')
        · obtain rfl := Except.error.inj (hbase.symm.trans hfault)
          simp
        · simp [hbase] at hbase'
      · rintro ⟨he, -⟩
        obtain rfl := Except.error.inj he
        exact .start hbase
  | ok base =>
      rw [resolveModule_eq hbase]
      constructor
      · rintro (hfault | ⟨hbase', hsplit, hmissed, hbroken⟩)
        · simp [hbase] at hfault
        · obtain rfl := Except.ok.inj (hbase.symm.trans hbase')
          rw [search_eq_error_iff.2 ⟨_, _, _, hsplit, hmissed, hbroken⟩]
          exact ⟨rfl, fun missing from_ he => settled?_ne_notFound (he ▸ hbroken)⟩
      · rintro ⟨he, hfound⟩
        rcases hsearch : search t ((targets base specifier).flatMap (targetLooks t extensions)) with e' | _ | file
        · rw [hsearch] at he
          obtain rfl : e' = e := Except.error.inj he
          obtain ⟨before, look, after, hsplit, hmissed, hbroken⟩ := search_eq_error_iff.1 hsearch
          exact .look hbase hsplit hmissed hbroken
        · rw [hsearch] at he
          exact absurd (Except.error.inj he).symm (hfound _ _)
        · obtain ⟨before, after, -, -, hfile⟩ := search_eq_some_iff.1 hsearch
          obtain ⟨place, hplace, -⟩ := Tree.resolve_of_isFile hfile
          simp [hsearch, concluded, hplace, Except.mapError] at he

/-- Resolution fails only by finding nothing. -/
def Resolvable (t : Tree) (specifier : String) (directory : Path) (extensions : List String) : Prop :=
  ∀ e, resolveModule t specifier directory extensions = .error e → ∃ missing from_, e = .notFound missing from_

instance : Decidable (Resolvable t specifier directory extensions) :=
  match h : resolveModule t specifier directory extensions with
  | .ok _ => .isTrue fun e he => by simp [h] at he
  | .error (.notFound missing from_) =>
    .isTrue fun e he => ⟨missing, from_, Except.error.inj (he.symm.trans h)⟩
  | .error .invalidName => .isFalse fun hr => by simpa using hr _ h
  | .error (.access fault) => .isFalse fun hr => by simpa using hr _ h

theorem Resolvable.not_breaksOff (h : Resolvable t specifier directory extensions) :
    ¬ BreaksOff t specifier directory extensions e := by
  intro hbreaks
  obtain ⟨hresolve, hother⟩ := breaksOff_iff.1 hbreaks
  obtain ⟨missing, from_, rfl⟩ := h e hresolve
  exact hother missing from_ rfl

end CssExtract.Package
