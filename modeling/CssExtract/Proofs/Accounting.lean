import CssExtract.Proofs.ScanBounds
import CssExtract.Proofs.Splice
import CssExtract.Proofs.Stages
import Mathlib.Data.List.Nodup
import Mathlib.Data.List.Perm.Basic

namespace CssExtract.Styled

open Script Text

/-- A list whose keys are some of the keys of another, in the same order, by the keys of that. -/
theorem eq_filterMap_find? {α κ β : Type} [DecidableEq κ] {key : α → κ} {key' : β → κ} {l : List β}
    {xs : List α} (h : (xs.map key).Sublist (l.map key')) (hl : (l.map key').Nodup) :
    xs = l.filterMap fun b => xs.find? (key · = key' b) := by
  induction l generalizing xs with
  | nil =>
      obtain rfl : xs = [] := by simpa using h
      rfl
  | cons b l ih =>
      obtain ⟨hb, hl⟩ := List.nodup_cons.1 hl
      have away {ys : List α} (hys : (ys.map key).Sublist (l.map key')) : ∀ y ∈ ys, key y ≠ key' b :=
        fun y hy e => hb (e ▸ hys.subset (List.mem_map_of_mem hy))
      rcases List.sublist_cons_iff.1 h with h | ⟨ks, hks, h⟩
      · have hnone : xs.find? (key · = key' b) = none := by simpa using away h
        simp only [List.filterMap_cons, hnone]
        exact ih h hl
      · obtain ⟨x, ys, rfl, hx, rfl⟩ := List.map_eq_cons_iff.1 hks
        have hsome : (x :: ys).find? (key · = key' b) = some x := by simp [hx]
        simp only [List.filterMap_cons, hsome]
        refine congrArg (x :: ·) ((ih h hl).trans (List.filterMap_congr fun c hc => ?_))
        -- no key of the rest is that of `x`
        have : key x ≠ key' c := fun e => hb (hx ▸ e ▸ List.mem_map_of_mem hc)
        simp [this]

theorem map_filterMap_sublist {α κ β : Type} {f : β → Option α} {key : α → κ} {key' : β → κ}
    (hkey : ∀ b a, f b = some a → key a = key' b) (l : List β) :
    ((l.filterMap f).map key).Sublist (l.map key') := by
  induction l with
  | nil => exact .slnil
  | cons b l ih =>
      cases hb : f b with
      | none =>
          simp only [List.filterMap_cons, hb, List.map_cons]
          exact ih.cons _
      | some a =>
          simp only [List.filterMap_cons, hb, List.map_cons, hkey b a hb]
          exact ih.cons_cons _

namespace Module

variable {m : Module} {raw : RawSite × Nat}

def item? (m : Module) (raw : RawSite × Nat) : Option ProcessedSite :=
  (m.read raw).toOption.bind m.construct?

theorem constructed_eq : m.constructed = m.raws.zipIdx.filterMap m.item? := by
  simp [constructed, callSites, found, List.filterMap_map, List.filterMap_filterMap]
  rfl

theorem read_of_item? {item : ProcessedSite} (h : m.item? raw = some item) :
    m.read raw = .ok item.site := by
  obtain ⟨site, hread, hitem⟩ := Option.bind_eq_some_iff.1 h
  obtain ⟨rfl, -⟩ := construct?_eq_some_iff.1 hitem
  cases hr : m.read raw <;> simp_all [Except.toOption]

theorem idx_of_item? {item : ProcessedSite} (h : m.item? raw = some item) :
    item.site.idx = raw.2 := (read_eq_ok (read_of_item? h)).2.2.1

def buildAt (m : Module) (idx : Nat) : Option Build := m.builds.find? (·.item.site.idx = idx)

theorem nodup_numbers : (m.raws.zipIdx.map (·.2)).Nodup := by
  rw [List.zipIdx_map_snd]
  exact List.nodup_range'

theorem raw_ext {raw' : RawSite × Nat} (h : raw ∈ m.raws.zipIdx) (h' : raw' ∈ m.raws.zipIdx)
    (hidx : raw.2 = raw'.2) : raw = raw' := List.inj_on_of_nodup_map nodup_numbers h h' hidx

theorem numbers_builds :
    (m.builds.map (·.item.site.idx)).Sublist (m.raws.zipIdx.map (·.2)) := by
  have h : m.builds.map (·.item.site.idx) = (m.raws.zipIdx.filterMap m.item?).map (·.site.idx) := by
    rw [← constructed_eq, ← map_item_builds, List.map_map]
    rfl
  rw [h]
  exact map_filterMap_sublist (fun _ _ => idx_of_item?) _

theorem builds_eq : m.builds = m.raws.zipIdx.filterMap fun raw => m.buildAt raw.2 :=
  eq_filterMap_find? numbers_builds nodup_numbers

theorem buildAt_eq_some_iff {idx : Nat} {b : Build} :
    m.buildAt idx = some b ↔ b ∈ m.builds ∧ b.item.site.idx = idx := by
  constructor
  · intro h
    exact ⟨List.mem_of_find?_eq_some h, by simpa using List.find?_some h⟩
  · rintro ⟨hb, rfl⟩
    cases hfind : m.buildAt b.item.site.idx with
    | none =>
        have := List.find?_eq_none.1 hfind b hb
        simp at this
    | some b' =>
        have hb' := List.mem_of_find?_eq_some hfind
        have hidx : b'.item.site.idx = b.item.site.idx := by simpa using List.find?_some hfind
        have hnodup := (nodup_numbers (m := m)).sublist numbers_builds
        rw [List.inj_on_of_nodup_map hnodup hb' hb hidx]

theorem map_item_buildAt (h : raw ∈ m.raws.zipIdx) :
    (m.buildAt raw.2).map Build.item = m.item? raw := by
  cases hitem : m.item? raw with
  | some item =>
      have hmem : item ∈ m.builds.map Build.item := by
        rw [map_item_builds, constructed_eq]
        exact List.mem_filterMap.2 ⟨raw, h, hitem⟩
      obtain ⟨b, hb, rfl⟩ := List.mem_map.1 hmem
      rw [buildAt_eq_some_iff.2 ⟨hb, idx_of_item? hitem⟩, Option.map_some]
  | none =>
      cases hb : m.buildAt raw.2 with
      | none => rfl
      | some b =>
          obtain ⟨hmem, hidx⟩ := buildAt_eq_some_iff.1 hb
          have hitem' := item_mem_of_mem_builds hmem
          rw [constructed_eq] at hitem'
          obtain ⟨raw', h', hraw'⟩ := List.mem_filterMap.1 hitem'
          obtain rfl := raw_ext h' h ((idx_of_item? hraw').symm.trans hidx)
          simp [hitem] at hraw'

end Module

/-- What becomes of a call site. -/
inductive Outcome
  | unreadable (error : HeadError)
  | skipped
  | rejected (warnings : List Warning) (error : StyledError)
  | unbuilt (warnings : List Warning) (error : StyledError)
  | replaced (warnings : List Warning) (node : Node) (rule : Rule)

namespace Outcome

variable (m : Module) (raw : RawSite)

def diagnostics (outcome : Outcome) : List Diagnostic :=
  let place := location m.source m.filename raw.span
  let warning (w : Warning) : Diagnostic := ⟨w.code, .warning, w.message, some place, none⟩
  match outcome with
  | .unreadable e => [parseDiagnostic m.filename ⟨.head m.filename place.start e, some place.start⟩]
  | .skipped => []
  | .rejected warnings e => e.diagnostic (some place) :: warnings.map warning
  | .unbuilt warnings e => warnings.map warning ++ [e.diagnostic (some place)]
  | .replaced warnings _ _ => warnings.map warning

def fails : Outcome → Bool
  | .skipped | .replaced .. => false
  | .unreadable _ | .rejected .. | .unbuilt .. => true

def rule? : Outcome → Option Rule
  | .replaced _ _ rule => some rule
  | _ => none

def built? : Outcome → Option (Option Node)
  | .unbuilt .. => some none
  | .replaced _ node _ => some (some node)
  | .unreadable _ | .skipped | .rejected .. => none

def node? (outcome : Outcome) : Option Node := outcome.built?.join

end Outcome

inductive Module.EndsAs (m : Module) (mode : Mode) : RawSite × Nat → Outcome → Prop
  | unreadable {raw : RawSite × Nat} {e : HeadError}
      (head : readHeadText raw.1.head.toList = .error e) : EndsAs m mode raw (.unreadable e)
  | skipped {raw : RawSite × Nat} {site : CallSite} (read : m.read raw = .ok site)
      (create : m.create site = (.error .skip, [])) : EndsAs m mode raw .skipped
  | rejected {raw : RawSite × Nat} {site : CallSite} {e : StyledError} {warnings : List Warning}
      (read : m.read raw = .ok site)
      (create : m.create site = (.error (.failed (.styled e)), warnings)) :
      EndsAs m mode raw (.rejected warnings e)
  | unbuilt {raw : RawSite × Nat} {site : CallSite} {p : Processor} {e : StyledError}
      {warnings : List Warning} {b : Build} (read : m.read raw = .ok site)
      (create : m.create site = (.ok p, warnings)) (due : b ∈ m.builds) (item : b.item = ⟨site, p⟩)
      (build : b.run.1 = .error (.styled e)) : EndsAs m mode raw (.unbuilt warnings e)
  | replaced {raw : RawSite × Nat} {site : CallSite} {p : Processor} {rule : Rule}
      {warnings : List Warning} {b : Build} (read : m.read raw = .ok site)
      (create : m.create site = (.ok p, warnings)) (due : b ∈ m.builds) (item : b.item = ⟨site, p⟩)
      (build : b.run.1 = .ok [(rule.selector, rule)]) :
      EndsAs m mode raw (.replaced warnings (mode.replacementOf b.run.2).node rule)

namespace Module

variable {m : Module} {mode : Mode} {raw : RawSite × Nat} {o : Outcome}

theorem read_of_head {e : HeadError} (h : readHeadText raw.1.head.toList = .error e) :
    m.read raw = .error ⟨.head m.filename (position m.source raw.1.span.start) e,
      some (position m.source raw.1.span.start)⟩ := by
  simp [read, callSiteOf, h]

theorem buildAt_eq_none (h : raw ∈ m.raws.zipIdx) (hitem : m.item? raw = none) :
    m.buildAt raw.2 = none := by
  rw [← map_item_buildAt h] at hitem
  simpa using hitem

theorem buildAt_of_mem {site : CallSite} {p : Processor} {b : Build} (hread : m.read raw = .ok site)
    (due : b ∈ m.builds) (hitem : b.item = ⟨site, p⟩) : m.buildAt raw.2 = some b := by
  obtain ⟨-, -, hidx, -⟩ := read_eq_ok hread
  exact buildAt_eq_some_iff.2 ⟨due, by rw [hitem]; exact hidx⟩

theorem EndsAs.buildAt_eq_none (h : m.EndsAs mode raw o) (hraw : raw ∈ m.raws.zipIdx)
    (ho : o.built? = none) : m.buildAt raw.2 = none := by
  refine Module.buildAt_eq_none hraw ?_
  cases h with
  | unreadable head => simp [item?, read_of_head head, Except.toOption]
  | skipped read create | rejected read create =>
      simp [item?, read, construct?, create, Except.toOption]
  | unbuilt | replaced => simp [Outcome.built?] at ho

theorem EndsAs.rules? (h : m.EndsAs mode raw o) (hraw : raw ∈ m.raws.zipIdx) :
    (m.buildAt raw.2).bind Build.rules? = o.rule?.map fun rule => [(rule.selector, rule)] := by
  have hidle := h.buildAt_eq_none hraw
  cases h with
  | unreadable | skipped | rejected => simp [hidle rfl, Outcome.rule?]
  | unbuilt read create due item build | replaced read create due item build =>
      simp [buildAt_of_mem read due item, Build.rules?, build, Except.toOption, Outcome.rule?]

theorem EndsAs.replacement? (h : m.EndsAs mode raw o) (hraw : raw ∈ m.raws.zipIdx) :
    (m.buildAt raw.2).map
      (fun b => (b.finished mode).processor.replacement.map (·.node)) = o.built? := by
  have hidle := h.buildAt_eq_none hraw
  cases h with
  | unreadable | skipped | rejected => simp [hidle rfl, Outcome.built?]
  | unbuilt read create due item build =>
      have hnew := (fresh_of_mem_constructed (item_mem_of_mem_builds due)).replacement
      simp [buildAt_of_mem read due item, Build.replacement_finished_of_error build hnew,
        Outcome.built?]
  | replaced read create due item build =>
      simp [buildAt_of_mem read due item, Build.replacement_finished build, Outcome.built?]

theorem EndsAs.diagnostics (h : m.EndsAs mode raw o) (hraw : raw ∈ m.raws.zipIdx) :
    (m.unreadable? (m.read raw)).toList ++
        ((m.read raw).toOption.toList.flatMap fun site =>
          (m.rejection? site).toList ++ m.warnings site) ++
        ((m.buildAt raw.2).bind Build.report?).toList = o.diagnostics m raw.1 := by
  have hidle := h.buildAt_eq_none hraw
  have hloc {site : CallSite} (hread : m.read raw = .ok site) :
      site.loc = location m.source m.filename raw.1.span := (read_eq_ok hread).2.1
  cases h with
  | unreadable head =>
      simp [hidle rfl, read_of_head head, unreadable?, Outcome.diagnostics, Except.toOption, location]
  | skipped read create =>
      simp [hidle rfl, read, create, unreadable?, rejection?, warnings, Outcome.diagnostics,
        Except.toOption]
  | rejected read create =>
      simp [hidle rfl, read, create, unreadable?, rejection?, warnings, Outcome.diagnostics,
        Except.toOption, hloc read, warningDiagnostic]
  | unbuilt read create due item build =>
      simp [buildAt_of_mem read due item, read, create, unreadable?, rejection?, warnings,
        Outcome.diagnostics, Except.toOption, hloc read, warningDiagnostic, Build.report?, build, item]
  | replaced read create due item build =>
      simp [buildAt_of_mem read due item, read, create, unreadable?, rejection?, warnings,
        Outcome.diagnostics, Except.toOption, hloc read, warningDiagnostic, Build.report?, build]

theorem EndsAs.unique {o' : Outcome} (h : m.EndsAs mode raw o) (h' : m.EndsAs mode raw o') :
    o = o' := by
  cases h with
  | unreadable head =>
      have hread := read_of_head (m := m) head
      cases h' <;> simp_all
  | skipped read create | rejected read create =>
      cases h' with
      | unreadable head => simp [read_of_head head] at read
      | _ => simp_all
  | unbuilt read create due item build | replaced read create due item build =>
      have hbuild := buildAt_of_mem read due item
      cases h' with
      | unreadable head => simp [read_of_head head] at read
      | skipped | rejected => simp_all
      | unbuilt read' create' due' item' build' | replaced read' create' due' item' build' =>
          have hbuild' := buildAt_of_mem read' due' item'
          simp_all

theorem exists_endsAs (hall : m.Handled) (mode : Mode) (hraw : raw ∈ m.raws.zipIdx) :
    ∃ o, m.EndsAs mode raw o := by
  cases hread : m.read raw with
  | error e =>
      cases head : readHeadText raw.1.head.toList with
      | error e => exact ⟨_, .unreadable head⟩
      | ok head' => simp [read, callSiteOf, head] at hread
  | ok site =>
      have hsite : site ∈ m.callSites := mem_callSites_iff.2 ⟨raw, hraw, hread⟩
      rcases hcreate : m.create site with ⟨created, warnings⟩
      cases created with
      | ok p =>
          have hitem : m.item? raw = some ⟨site, p⟩ := by
            simp [item?, hread, construct?, hcreate, Except.toOption]
          obtain ⟨b, hb, hbitem⟩ := Option.map_eq_some_iff.1 ((map_item_buildAt hraw).trans hitem)
          have due := (buildAt_eq_some_iff.1 hb).1
          cases hrun : b.run.1 with
          | ok rules =>
              obtain ⟨rule, rfl⟩ := Processor.build_eq_ok hrun
              exact ⟨_, .replaced hread hcreate due hbitem hrun⟩
          | error failure =>
              obtain ⟨e, rfl⟩ := hall.reported b due failure hrun
              exact ⟨_, .unbuilt hread hcreate due hbitem hrun⟩
      | error stop =>
          cases stop with
          | skip =>
              exact ⟨_, .skipped hread (Processor.create_of_skip (by rw [← create, hcreate]))⟩
          | failed failure =>
              obtain ⟨e, rfl⟩ := hall.creatable site hsite failure (by rw [hcreate])
              exact ⟨_, .rejected hread hcreate⟩
          | noCallee =>
              obtain ⟨-, -, -, head, -, hparams⟩ := read_eq_ok hread
              rw [create, hparams] at hcreate
              exact absurd (congrArg Prod.fst hcreate) Processor.create_callee

/-- Every call site has one outcome, and an extraction gives what the outcomes give, site by site:
the code is the source with the replaced sites given up for their replacements. -/
structure Accounts (m : Module) (mode : Mode) (outcome : RawSite × Nat → Outcome)
    (result : Extraction) : Prop where
  ends : ∀ raw ∈ m.raws.zipIdx, ∀ o, m.EndsAs mode raw o ↔ o = outcome raw
  diagnostics : result.diagnostics.Perm
    (m.raws.zipIdx.flatMap fun raw => (outcome raw).diagnostics m raw.1)
  hasErrors : result.hasErrors ↔ ∃ raw ∈ m.raws.zipIdx, (outcome raw).fails
  rules : result.rules = (m.raws.zipIdx.filterMap fun raw => (outcome raw).rule?).foldl
    (fun rules rule => Entries.set rule.selector rule rules) []
  sites : result.sites.map (fun item => (item.site.idx, item.processor.replacement.map (·.node))) =
    m.raws.zipIdx.filterMap fun raw => (outcome raw).built?.map (raw.2, ·)
  code : Spliced 0 m.source
    (m.raws.zipIdx.filterMap fun raw => (outcome raw).node?.map (raw.1.span, ·.print 0))
    result.code.toList

theorem diagnostics_perm {outcome : RawSite × Nat → Outcome}
    (ends : ∀ raw ∈ m.raws.zipIdx, m.EndsAs mode raw (outcome raw)) :
    m.diagnostics.Perm (m.raws.zipIdx.flatMap fun raw => (outcome raw).diagnostics m raw.1) := by
  have hunreadable : m.found.filterMap m.unreadable? =
      m.raws.zipIdx.flatMap fun raw => (m.unreadable? (m.read raw)).toList := by
    rw [found, List.filterMap_map, List.filterMap_eq_flatMap_toList]
    rfl
  have hcreated : (m.callSites.flatMap fun site => (m.rejection? site).toList ++ m.warnings site) =
      m.raws.zipIdx.flatMap fun raw => (m.read raw).toOption.toList.flatMap fun site =>
        (m.rejection? site).toList ++ m.warnings site := by
    rw [callSites, found, List.filterMap_map, List.filterMap_eq_flatMap_toList, List.flatMap_assoc]
    rfl
  have hbuilt : m.builds.filterMap Build.report? =
      m.raws.zipIdx.flatMap fun raw => ((m.buildAt raw.2).bind Build.report?).toList := by
    rw [← List.filterMap_eq_flatMap_toList, ← List.filterMap_filterMap, ← builds_eq]
  rw [diagnostics, hunreadable, hcreated, hbuilt]
  refine ((List.flatMap_append_perm _ _ _).append_right _).trans ?_
  refine (List.flatMap_append_perm _ _ _).trans (.of_eq ?_)
  exact List.flatMap_congr fun raw hraw => (ends raw hraw).diagnostics hraw

theorem any_isError_diagnostics (raw : RawSite) (o : Outcome) :
    (o.diagnostics m raw).any Diagnostic.isError = o.fails := by
  have hwarning (ws : List Warning) (place : Location) :
      (ws.map fun w => (⟨w.code, .warning, w.message, some place, none⟩ : Diagnostic)).any
        Diagnostic.isError = false := by
    simp [Diagnostic.isError]
  cases o <;>
    simp [Outcome.diagnostics, Outcome.fails, hwarning, parseDiagnostic, StyledError.diagnostic,
      Diagnostic.isError]

theorem code_spliced {outcome : RawSite × Nat → Outcome}
    (ends : ∀ raw ∈ m.raws.zipIdx, m.EndsAs mode raw (outcome raw))
    (hapart : Apart m.source.length 0 m.raws) :
    Spliced 0 m.source
      (m.raws.zipIdx.filterMap fun raw => (outcome raw).node?.map (raw.1.span, ·.print 0))
      (splice 0 m.source (replacements (m.builds.map (·.finished mode)))) := by
  have hedits : replacements (m.builds.map (·.finished mode)) =
      m.raws.zipIdx.filterMap fun raw => (outcome raw).node?.map (raw.1.span, ·.print 0) := by
    rw [replacements, List.filterMap_map, builds_eq, List.filterMap_filterMap]
    refine List.filterMap_congr fun raw hraw => ?_
    have hnode := (ends raw hraw).replacement? hraw
    cases hb : m.buildAt raw.2 with
    | none => simp [Outcome.node?, ← hnode, hb]
    | some b =>
        have hitem : m.item? raw = some b.item := by rw [← map_item_buildAt hraw, hb, Option.map_some]
        have hspan : (b.finished mode).site.span = raw.1.span := (read_eq_ok (read_of_item? hitem)).1
        simp [Outcome.node?, ← hnode, hb, hspan, Function.comp_def]
  rw [hedits]
  refine splice_spliced ?_ ?_
  · intro edit hedit
    obtain ⟨raw, hraw, hmap⟩ := List.mem_filterMap.1 hedit
    obtain ⟨node, -, rfl⟩ := Option.map_eq_some_iff.1 hmap
    obtain ⟨hstart, hspan⟩ := hapart.proper raw.1 (List.fst_mem_of_mem_zipIdx hraw)
    exact ⟨hstart, Nat.le_of_lt hspan.1, by rw [Nat.zero_add]; exact hspan.2⟩
  · have hpair := hapart.ordered
    rw [← List.zipIdx_map_fst 0 m.raws] at hpair
    refine List.Pairwise.filterMap _ (fun raw raw' hle edit hedit edit' hedit' => ?_)
      (List.pairwise_map.1 hpair)
    obtain ⟨_, -, rfl⟩ := Option.map_eq_some_iff.1 hedit
    obtain ⟨_, -, rfl⟩ := Option.map_eq_some_iff.1 hedit'
    exact hle

theorem rules_eq {outcome : RawSite × Nat → Outcome}
    (ends : ∀ raw ∈ m.raws.zipIdx, m.EndsAs mode raw (outcome raw)) :
    m.builds.filterMap Build.rules? =
      (m.raws.zipIdx.filterMap fun raw => (outcome raw).rule?).map
        fun rule => [(rule.selector, rule)] := by
  rw [builds_eq, List.filterMap_filterMap, List.map_filterMap]
  exact List.filterMap_congr fun raw hraw => (ends raw hraw).rules? hraw

theorem sites_eq {outcome : RawSite × Nat → Outcome}
    (ends : ∀ raw ∈ m.raws.zipIdx, m.EndsAs mode raw (outcome raw)) :
    (m.builds.map (·.finished mode)).map
        (fun item => (item.site.idx, item.processor.replacement.map (·.node))) =
      m.raws.zipIdx.filterMap fun raw => (outcome raw).built?.map (raw.2, ·) := by
  rw [List.map_map, builds_eq, List.map_filterMap]
  refine List.filterMap_congr fun raw hraw => ?_
  rw [← (ends raw hraw).replacement? hraw]
  cases hb : m.buildAt raw.2 with
  | none => rfl
  | some b => simp [← (buildAt_eq_some_iff.1 hb).2, Build.finished]

theorem Handled.accounts (hall : m.Handled) (mode : Mode) (hapart : Apart m.source.length 0 m.raws) :
    ∃ outcome, m.Accounts mode outcome (m.result mode) := by
  have hends : ∀ raw, ∃ o, raw ∈ m.raws.zipIdx → m.EndsAs mode raw o := by
    intro raw
    by_cases hraw : raw ∈ m.raws.zipIdx
    · obtain ⟨o, ho⟩ := exists_endsAs hall mode hraw
      exact ⟨o, fun _ => ho⟩
    · exact ⟨.skipped, fun h => absurd h hraw⟩
  choose outcome ends using hends
  refine ⟨outcome, ?_⟩
  constructor
  case ends =>
    intro raw hraw o
    constructor
    · exact fun h => h.unique (ends raw hraw)
    · rintro rfl
      exact ends raw hraw
  case diagnostics => exact diagnostics_perm ends
  case hasErrors =>
    rw [Extraction.hasErrors, Module.result, (diagnostics_perm ends).any_eq, List.any_flatMap]
    simp [any_isError_diagnostics]
  case rules =>
    simp only [Module.result, rules_eq ends, List.foldl_map]
    rfl
  case sites => exact sites_eq ends
  case code =>
    simp only [Module.result, String.toList_ofList]
    exact code_spliced ends hapart

end Module

end CssExtract.Styled
