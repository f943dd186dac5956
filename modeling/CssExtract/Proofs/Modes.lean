import CssExtract.Proofs.Accounting
import CssExtract.Proofs.Builds

namespace CssExtract.Styled

open Script Text

def ProcessedSite.unreplaced (item : ProcessedSite) : ProcessedSite :=
  ⟨item.site, { item.processor with replacement := none }⟩

/-- Two extractions of a source agree in all but what they put in the place of the same spans. -/
structure SameButText (source : List Char) (a b : Extraction) : Prop where
  rules : a.rules = b.rules
  css : a.css = b.css
  diagnostics : a.diagnostics = b.diagnostics
  dependencies : a.dependencies = b.dependencies
  sites : a.sites.map ProcessedSite.unreplaced = b.sites.map ProcessedSite.unreplaced
  spans : (replacements a.sites).map (·.1) = (replacements b.sites).map (·.1)
  code : Spliced 0 source (replacements a.sites) a.code.toList
  code' : Spliced 0 source (replacements b.sites) b.code.toList

theorem Build.unreplaced_finished (b : Build) (mode mode' : Mode) :
    (b.finished mode).unreplaced = (b.finished mode').unreplaced := by
  simp only [finished]
  rcases b.run with ⟨result, p⟩
  cases result <;> rfl

theorem Build.isSome_replacement_finished (b : Build) (mode mode' : Mode) :
    (b.finished mode).processor.replacement.isSome =
      (b.finished mode').processor.replacement.isSome := by
  simp only [finished]
  rcases b.run with ⟨result, p⟩
  cases result <;> rfl

theorem map_fst_replacements (items : List ProcessedSite) :
    (replacements items).map (·.1) =
      (items.filter (·.processor.replacement.isSome)).map (·.site.span) := by
  induction items with
  | nil => rfl
  | cons item items ih =>
      cases h : item.processor.replacement with
      | none => simpa [replacements, h] using ih
      | some r => simpa [replacements, h] using ih

theorem map_fst_replacements_sublist (items : List ProcessedSite) :
    ((replacements items).map (·.1)).Sublist (items.map (·.site.span)) := by
  rw [map_fst_replacements]
  exact List.filter_sublist.map _

/-- Texts in the place of some of the spans of sites keep all that stands outside them. -/
theorem splice_of_sublist {width : Nat} {source : List Char} {raws : List RawSite}
    {edits : List (Span × List Char)} (hraws : Ordered width source.length 0 raws)
    (hsub : (edits.map (·.1)).Sublist (raws.map (·.span))) :
    Spliced 0 source edits (splice 0 source edits) := by
  have hpair : (raws.map (·.span)).Pairwise fun a b => a.stop ≤ b.start :=
    List.pairwise_map.2 hraws.ordered
  refine splice_spliced (fun edit hedit => ?_) (List.pairwise_map.1 (hpair.sublist hsub))
  obtain ⟨raw, hraw, hspan⟩ := List.mem_map.1 (hsub.subset (List.mem_map_of_mem hedit))
  obtain ⟨-, hwidth, hstop⟩ := hraws.within raw hraw
  rw [← hspan]
  omega

namespace Module

variable {m : Module}

theorem span_of_item? {raw : RawSite × Nat} {item : ProcessedSite} (h : m.item? raw = some item) :
    item.site.span = raw.1.span := (read_eq_ok (read_of_item? h)).1

theorem spans_builds : (m.builds.map (·.item.site.span)).Sublist (m.raws.map (·.span)) := by
  have h : m.builds.map (·.item.site.span) = (m.raws.zipIdx.filterMap m.item?).map (·.site.span) := by
    rw [← constructed_eq, ← map_item_builds, List.map_map]
    rfl
  have hraws : m.raws.zipIdx.map (·.1.span) = m.raws.map (·.span) := by
    rw [← Function.comp_def RawSite.span, ← List.map_map, List.zipIdx_map_fst]
  rw [h, ← hraws]
  exact map_filterMap_sublist (fun _ _ => span_of_item?) _

theorem finish_eq_map (m : Module) (mode : Mode) :
    m.finish mode = (createAll m.host m.options m.filename m.callSites).map fun _ =>
      (m.builds.map (·.finished mode), m.builds.filterMap Build.rules?, m.diagnostics) := by
  cases hcreate : createAll m.host m.options m.filename m.callSites with
  | error failure =>
      simp [finish, hcreate, bind, Except.bind, Except.map]
  | ok created =>
      obtain ⟨hcreatable, -⟩ := m.createAll_eq_ok_iff.1 hcreate
      exact finish_eq_ok_iff.2 ⟨⟨hcreatable, fun _ => reported_of_mem_builds⟩, rfl⟩

theorem result_sameButText (hraws : findSites m.source m.options.tag.toList = .ok m.raws)
    (mode mode' : Mode) : SameButText m.source (m.result mode) (m.result mode') := by
  have hcode (mode : Mode) :
      Spliced 0 m.source (replacements (m.result mode).sites) (m.result mode).code.toList := by
    simp only [result, String.toList_ofList]
    refine splice_of_sublist (findSites_ordered hraws) ?_
    refine (map_fst_replacements_sublist _).trans ?_
    rw [List.map_map]
    exact spans_builds
  constructor
  case rules | css | diagnostics => rfl
  case dependencies =>
    have hsame (b : Build) : (b.finished mode).processor.dependencies =
        (b.finished mode').processor.dependencies :=
      congrArg (·.processor.dependencies) (b.unreplaced_finished mode mode')
    simp [result, List.flatMap_map, hsame]
  case sites =>
    simp only [result, List.map_map]
    exact List.map_congr_left fun b _ => b.unreplaced_finished mode mode'
  case spans =>
    simp only [result, map_fst_replacements, List.filter_map, List.map_map]
    congr 1
    exact List.filter_congr fun b _ => b.isSome_replacement_finished mode mode'
  case code => exact hcode mode
  case code' => exact hcode mode'

end Module

/-- Both modes fail by the same error, or both return and differ only in the texts that they put in
the place of the same call sites. -/
theorem extract_modes_agree (t : Host) (options : Options) (filename : Option String)
    (text : String) :
    (∃ e, extract t options .eval filename text = .error e ∧
      extract t options .runtime filename text = .error e) ∨
    ∃ a b, extract t options .eval filename text = .ok a ∧
      extract t options .runtime filename text = .ok b ∧ SameButText text.toList a b := by
  cases himports : parseImports text.toList with
  | error e => exact .inl ⟨.imports e, by simp [extract, himports], by simp [extract, himports]⟩
  | ok imports =>
      cases hraws : findSites text.toList options.tag.toList with
      | error e =>
          have hrun (mode : Mode) : extract t options mode filename text =
              if (ParseError.ofScan text.toList e).cause = .scan .endless then .error .endless
              else .ok { code := text, diagnostics := [parseDiagnostic filename (.ofScan text.toList e)] } := by
            simp only [extract, himports, findCallSites, hraws]
          rw [hrun, hrun]
          split_ifs
          · exact .inl ⟨_, rfl, rfl⟩
          · exact .inr ⟨_, _, rfl, rfl, rfl, rfl, rfl, rfl, rfl, rfl, .rest 0 _, .rest 0 _⟩
      | ok raws =>
          let m : Module := ⟨t, options, filename, text.toList, imports, raws⟩
          have hm : moduleOf? t options filename text = some m :=
            moduleOf?_eq_some_iff.2 ⟨himports, hraws, rfl, rfl, rfl, rfl⟩
          have hrun (mode : Mode) := extract_eq_finish hm mode
          simp only [m.finish_eq_map] at hrun
          cases hcreate : createAll m.host m.options m.filename m.callSites with
          | error failure =>
              simp only [hcreate, Except.map] at hrun
              exact .inl ⟨_, hrun .eval, hrun .runtime⟩
          | ok created =>
              simp only [hcreate, Except.map] at hrun
              exact .inr ⟨_, _, hrun .eval, hrun .runtime, m.result_sameButText hraws .eval .runtime⟩

end CssExtract.Styled
