import CssExtract.Proofs.Accounting
import CssExtract.Proofs.Chain
import CssExtract.Proofs.ClassNames

namespace CssExtract.Script

open Text

theorem ne_nil_of_take_nameLength? {part : Char → Bool} {s : List Char} {n : Nat}
    (h : nameLength? part s = some n) : s.take n ≠ [] := by
  cases s with
  | nil => simp [nameLength?] at h
  | cons c s =>
      simp only [nameLength?] at h
      split_ifs at h
      obtain rfl := Option.some.inj h
      simp

theorem ne_nil_of_bindingBefore? {s name : List Char} (h : bindingBefore? s = some name) :
    name ≠ [] := by
  induction s with
  | nil => simp [bindingBefore?] at h
  | cons c s ih =>
      rcases Option.or_eq_some_iff.1 h with hhere | ⟨-, hlater⟩
      · simp only [declared?, bind, Option.bind_eq_some_iff] at hhere
        obtain ⟨-, -, s₁, -, length, hlength, -, -, -, -, -, -, hname⟩ := hhere
        obtain rfl := Option.some.inj hname
        exact ne_nil_of_take_nameLength? hlength
      · exact ih hlater

end CssExtract.Script

namespace CssExtract.Styled

open Script Text

theorem defaultName_ne_empty (filename : Option String) (idx : Nat) :
    defaultName filename idx ≠ "" := by
  intro h
  have hlist := congrArg String.toList h
  simp [defaultName] at hlist

theorem displayName_ne_empty {m : Module} {raw : RawSite × Nat} {site : CallSite}
    (h : m.read raw = .ok site) : (contextOf m.options m.filename site).displayName ≠ "" := by
  simp only [Module.read, callSiteOf] at h
  split at h
  · obtain rfl := Except.ok.inj h
    simp only [contextOf]
    cases hbinding : bindingBefore? (m.source.take raw.1.span.start) with
    | none => exact defaultName_ne_empty _ _
    | some name => simpa using ne_nil_of_bindingBefore? hbinding
  · simp at h

theorem nodup_map_of_nodup_map {α β γ : Type} {f : α → β} {g : α → γ} {l : List α}
    (h : (l.map f).Nodup) (hfg : ∀ a ∈ l, ∀ b ∈ l, g a = g b → f a = f b) : (l.map g).Nodup := by
  refine List.pairwise_map.2 ((List.pairwise_map.1 h).imp_of_mem ?_)
  intro a b ha hb hne hsame
  exact hne (hfg a ha b hb hsame)

namespace Module

variable {m : Module}

def digest (m : Module) (item : ProcessedSite) : String :=
  slugify (relativeName m.filename m.options.root ++ ":" ++ toString (item.site.idx : Int))

theorem names_of_mem_constructed {item : ProcessedSite} (h : item ∈ m.constructed) :
    ∃ name, name ≠ "" ∧
      item.processor.slug = (namesOf name item.site.idx m.options m.filename).slug ∧
      item.processor.className = (namesOf name item.site.idx m.options m.filename).className ∧
      item.processor.location = some item.site.loc := by
  obtain ⟨hsite, hcreate⟩ := mem_constructed_iff.1 h
  obtain ⟨raw, -, hread⟩ := mem_callSites_iff.1 hsite
  obtain ⟨_, _, _, _, -, -, hp⟩ := Processor.create_eq_ok hcreate
  refine ⟨(contextOf m.options m.filename item.site).displayName, displayName_ne_empty hread, ?_⟩
  simp only [hp, Processor.wrapping, contextOf, and_self]

theorem digest_eq_of_names_eq {item item' : ProcessedSite} (hnaming : m.options.classNaming = .default)
    (h : item ∈ m.constructed) (h' : item' ∈ m.constructed)
    (hsame : item.processor.slug = item'.processor.slug ∨
      item.processor.className = item'.processor.className) : m.digest item = m.digest item' := by
  obtain ⟨name, hname, hslug, hclass, -⟩ := names_of_mem_constructed h
  obtain ⟨name', hname', hslug', hclass', -⟩ := names_of_mem_constructed h'
  rw [hslug, hslug', hclass, hclass'] at hsame
  exact slugify_eq_of_namesOf_eq hnaming hname hname' hsame

end Module

theorem toList_selectorOf_cons (name : String) (names : List String) :
    (selectorOf (name :: names)).toList = '.' :: name.toList ++ (selectorOf names).toList := by
  simp [selectorOf, String.join_cons]

theorem head?_selectorOf {names : List String} {c : Char}
    (h : (selectorOf names).toList.head? = some c) : c = '.' := by
  cases names with
  | nil => simp [selectorOf] at h
  | cons name names =>
      rw [toList_selectorOf_cons] at h
      exact (Option.some.inj h).symm

/-- The first class name of a selector reaches to the next dot. -/
theorem takeWhile_selectorOf {name : String} (h : '.' ∉ name.toList) (names : List String) :
    (selectorOf (name :: names)).toList.tail.takeWhile (· ≠ '.') = name.toList := by
  rw [toList_selectorOf_cons, List.cons_append, List.tail_cons,
    List.takeWhile_append_of_pos fun c hc => by simpa using ne_of_mem_of_not_mem hc h]
  cases hrest : (selectorOf names).toList with
  | nil => simp
  | cons c rest =>
      obtain rfl := head?_selectorOf (c := c) (by rw [hrest, List.head?_cons])
      simp

theorem className_eq_of_selectorOf_eq {name name' : String} {names names' : List String}
    (h : '.' ∉ name.toList) (h' : '.' ∉ name'.toList)
    (hsame : selectorOf (name :: names) = selectorOf (name' :: names')) : name = name' := by
  have hfirst := takeWhile_selectorOf h names
  rw [hsame, takeWhile_selectorOf h'] at hfirst
  exact String.toList_inj.1 hfirst.symm

structure RuleOf (item : ProcessedSite) (rule : Rule) : Prop where
  selector : ∃ extended, rule.selector = selectorOf (item.processor.className :: extended)
  className : rule.className = item.processor.className
  displayName : rule.displayName = item.processor.displayName
  cssText : item.processor.cssText = some rule.cssText
  start : rule.start = some item.site.loc.start

theorem Processor.build_rule {p : Processor} {cache : ValueCache} {values : List (Nat × Eval.Value)}
    {rules : Rules} (h : (p.build cache values).1 = .ok rules) :
    ∃ rule, rules = [(rule.selector, rule)] ∧
      (∃ extended, rule.selector = selectorOf (p.className :: extended)) ∧
      rule.className = p.className ∧ rule.displayName = p.displayName ∧
      (p.build cache values).2.cssText = some rule.cssText ∧
      rule.start = p.location.map (·.start) := by
  have hkeeps := buildHoles_keeps values p.template.holes 0 p.template.first p
  simp only [build] at h ⊢
  split_ifs at h ⊢
  generalize buildHoles values p.template.holes 0 p.template.first p = built at h hkeeps ⊢
  obtain ⟨result, q⟩ := built
  obtain ⟨_, _, _, rfl⟩ := hkeeps
  cases result with
  | error failure => simp at h
  | ok css =>
      simp only [extractRules_eq] at h
      split at h
      · simp at h
      · rename_i extended _
        obtain rfl := Except.ok.inj h
        exact ⟨⟨selectorOf (p.className :: extended), css, _, _, _⟩, rfl, ⟨extended, rfl⟩, rfl, rfl,
          rfl, rfl⟩

theorem Build.finished_eq (b : Build) (mode : Mode) :
    ∃ issued interpolations replacement, (b.finished mode).processor =
      { b.item.processor with issued, interpolations, cssText := b.run.2.cssText, replacement } := by
  have hkeeps := b.run_keeps
  simp only [finished]
  generalize b.run = built at hkeeps ⊢
  obtain ⟨result, p⟩ := built
  obtain ⟨_, _, _, rfl⟩ := hkeeps
  cases result with
  | ok rules => exact ⟨_, _, _, rfl⟩
  | error failure => exact ⟨_, _, _, rfl⟩

namespace Module

variable {m : Module} {b : Build} {mode : Mode}

theorem exists_ruleOf {rules : Rules} (hb : b ∈ m.builds) (h : b.run.1 = .ok rules) :
    ∃ rule, rules = [(rule.selector, rule)] ∧ RuleOf (b.finished mode) rule := by
  obtain ⟨rule, hrules, hselector, hclass, hname, hcss, hstart⟩ := Processor.build_rule h
  obtain ⟨_, -, -, -, hlocation⟩ := names_of_mem_constructed (item_mem_of_mem_builds hb)
  obtain ⟨_, _, _, hfinished⟩ := b.finished_eq mode
  refine ⟨rule, hrules, ?_⟩
  constructor
  case selector => simpa only [hfinished] using hselector
  case className => simpa only [hfinished] using hclass
  case displayName => simpa only [hfinished] using hname
  case cssText => rw [hfinished]; exact hcss
  case start => rw [hstart, hlocation, Option.map_some]; rfl

theorem exists_rules {builds : List Build} (hbuilds : ∀ b ∈ builds, b ∈ m.builds) (mode : Mode) :
    ∃ extracted : List Rule,
      builds.filterMap Build.rules? = extracted.map (fun rule => [(rule.selector, rule)]) ∧
      List.Forall₂ RuleOf
        ((builds.map (·.finished mode)).filter (·.processor.replacement.isSome)) extracted := by
  induction builds with
  | nil => exact ⟨[], rfl, .nil⟩
  | cons b builds ih =>
      obtain ⟨hb, hbuilds⟩ := List.forall_mem_cons.1 hbuilds
      obtain ⟨extracted, hextracted, hrules⟩ := ih hbuilds
      rw [filterMap_cons_eq_append, List.map_cons]
      cases hrun : b.run.1 with
      | error failure =>
          have hnew := (fresh_of_mem_constructed (item_mem_of_mem_builds hb)).replacement
          have hnone : (b.finished mode).processor.replacement = none :=
            Build.replacement_finished_of_error hrun hnew
          exact ⟨extracted, by simpa [Build.rules?, hrun, Except.toOption] using hextracted,
            by simpa [hnone] using hrules⟩
      | ok rules =>
          obtain ⟨rule, rfl, hrule⟩ : ∃ rule, rules = [(rule.selector, rule)] ∧
              RuleOf (b.finished mode) rule := exists_ruleOf hb hrun
          have hsome : (b.finished mode).processor.replacement = some (mode.replacementOf b.run.2) :=
            Build.replacement_finished hrun
          refine ⟨rule :: extracted, ?_, ?_⟩
          · simp [Build.rules?, hrun, Except.toOption, hextracted]
          · rw [List.filter_cons_of_pos (by simp [hsome])]
            exact .cons hrule hrules

/-- The names of the sites of a module differ, and its rules are those of the sites that are built,
one for each of them. -/
structure KeepsRules (m : Module) (mode : Mode) (extracted : List Rule) : Prop where
  rules? : m.builds.filterMap Build.rules? = extracted.map fun rule => [(rule.selector, rule)]
  slugs : ((m.result mode).sites.map (·.processor.slug)).Nodup
  classNames : ((m.result mode).sites.map (·.processor.className)).Nodup
  selectors : (extracted.map (·.selector)).Nodup
  rules : (m.result mode).rules = extracted.map fun rule => (rule.selector, rule)
  built : List.Forall₂ RuleOf
    ((m.result mode).sites.filter (·.processor.replacement.isSome)) extracted

theorem names_of_mem_result {item : ProcessedSite} (h : item ∈ (m.result mode).sites) :
    ∃ item' ∈ m.constructed, item.site = item'.site ∧ item.processor.slug = item'.processor.slug ∧
      item.processor.className = item'.processor.className := by
  obtain ⟨b, hb, rfl⟩ := List.mem_map.1 h
  obtain ⟨_, _, _, hfinished⟩ := b.finished_eq mode
  exact ⟨b.item, item_mem_of_mem_builds hb, rfl, by rw [hfinished], by rw [hfinished]⟩

theorem digest_eq_of_mem_result (hnaming : m.options.classNaming = .default)
    {item item' : ProcessedSite} (h : item ∈ (m.result mode).sites)
    (h' : item' ∈ (m.result mode).sites)
    (hsame : item.processor.slug = item'.processor.slug ∨
      item.processor.className = item'.processor.className) : m.digest item = m.digest item' := by
  obtain ⟨built, hbuilt, hsite, hslug, hclass⟩ := names_of_mem_result h
  obtain ⟨built', hbuilt', hsite', hslug', hclass'⟩ := names_of_mem_result h'
  rw [hslug, hslug', hclass, hclass'] at hsame
  rw [digest, digest, hsite, hsite']
  exact digest_eq_of_names_eq hnaming hbuilt hbuilt' hsame

theorem dot_notMem_className (hnaming : m.options.classNaming = .default) {item : ProcessedSite}
    (h : item ∈ (m.result mode).sites) : '.' ∉ item.processor.className.toList := by
  obtain ⟨built, hbuilt, -, -, hclass⟩ := names_of_mem_result h
  obtain ⟨name, -, -, hnames, -⟩ := names_of_mem_constructed hbuilt
  rw [hclass, hnames]
  exact dot_notMem_namesOf name _ hnaming

end Module

theorem nodup_selectors {items : List ProcessedSite} {extracted : List Rule}
    (hrules : List.Forall₂ RuleOf items extracted)
    (hdot : ∀ item ∈ items, '.' ∉ item.processor.className.toList)
    (hclasses : (items.map (·.processor.className)).Nodup) : (extracted.map (·.selector)).Nodup := by
  have hsame : items.map (·.processor.className) = extracted.map (·.className) := by
    clear hdot hclasses
    induction hrules with
    | nil => rfl
    | cons hrule hrules ih => rw [List.map_cons, List.map_cons, hrule.className, ih]
  have hselector : ∀ rule ∈ extracted, '.' ∉ rule.className.toList ∧
      ∃ extended, rule.selector = selectorOf (rule.className :: extended) := by
    clear hclasses hsame
    induction hrules with
    | nil => simp
    | cons hrule hrules ih =>
        obtain ⟨hitem, hitems⟩ := List.forall_mem_cons.1 hdot
        refine List.forall_mem_cons.2 ⟨?_, ih hitems⟩
        rw [hrule.className]
        exact ⟨hitem, hrule.selector⟩
  rw [hsame] at hclasses
  refine nodup_map_of_nodup_map hclasses fun rule hrule rule' hrule' heq => ?_
  obtain ⟨hdot, extended, hs⟩ := hselector rule hrule
  obtain ⟨hdot', extended', hs'⟩ := hselector rule' hrule'
  exact className_eq_of_selectorOf_eq hdot hdot' (hs.symm.trans (heq.trans hs'))

namespace Module

variable {m : Module} {mode : Mode}

theorem exists_keepsRules (hnaming : m.options.classNaming = .default)
    (hdigests : ((m.result mode).sites.map m.digest).Nodup) :
    ∃ extracted, m.KeepsRules mode extracted := by
  obtain ⟨extracted, hextracted, hrules⟩ := exists_rules (m := m) (fun _ hb => hb) mode
  have hslugs : ((m.result mode).sites.map (·.processor.slug)).Nodup :=
    nodup_map_of_nodup_map hdigests fun _ h _ h' hsame =>
      digest_eq_of_mem_result hnaming h h' (.inl hsame)
  have hclasses : ((m.result mode).sites.map (·.processor.className)).Nodup :=
    nodup_map_of_nodup_map hdigests fun _ h _ h' hsame =>
      digest_eq_of_mem_result hnaming h h' (.inr hsame)
  have hselectors : (extracted.map (·.selector)).Nodup := by
    refine nodup_selectors hrules (fun item hitem => ?_) (hclasses.sublist ?_)
    · exact dot_notMem_className hnaming (List.mem_of_mem_filter hitem)
    · exact List.filter_sublist.map _
  refine ⟨extracted, hextracted, hslugs, hclasses, hselectors, ?_, hrules⟩
  have hflat : (extracted.map fun rule => [(rule.selector, rule)]).flatten =
      extracted.map fun rule => (rule.selector, rule) := List.flatMap_pure_eq_map _ extracted
  simp only [result, hextracted]
  rw [Entries.foldl_setAll_of_nodup, List.nil_append, hflat]
  rw [List.nil_append, hflat, List.map_map]
  exact hselectors

end Module

/-- Without a naming of the project, and with digests that differ, no slug or class name is taken
twice and no rule is lost: the rules are those of the sites that are built. -/
theorem extract_keeps_rules {t : Host} {options : Options} {mode : Mode} {filename : Option String}
    {text : String} {result : Extraction} (h : extract t options mode filename text = .ok result)
    (hnaming : options.classNaming = .default)
    (hdigests : (result.sites.map fun item => slugify
      (relativeName filename options.root ++ ":" ++ toString (item.site.idx : Int))).Nodup) :
    (moduleOf? t options filename text = none ∧ result.sites = [] ∧ result.rules = []) ∨
    ∃ m extracted, moduleOf? t options filename text = some m ∧ result = m.result mode ∧
      m.KeepsRules mode extracted := by
  obtain ⟨e, hscan, rfl⟩ | ⟨m, hm, -, rfl⟩ := extract_cases h
  · refine .inl ⟨?_, rfl, rfl⟩
    cases himports : parseImports text.toList <;> simp [moduleOf?, himports, hscan, Except.toOption]
  · obtain ⟨-, -, -, rfl, rfl, -⟩ := moduleOf?_eq_some_iff.1 hm
    obtain ⟨extracted, hkeeps⟩ := Module.exists_keepsRules hnaming hdigests
    exact .inr ⟨m, extracted, hm, rfl, hkeeps⟩

def kindredSites : String :=
  "const Button = styled.a`a`;\nconst Box = styled(Button)`b`;\nconst Bad = styled(Bad)`c`;\n"

theorem kindredSites_keep_rules :
    ∃ result, extract {} {} .runtime none kindredSites = .ok result ∧
      result.sites.map (·.processor.displayName) = ["Button", "Box", "Bad"] ∧
      result.rules.map (·.2.displayName) = ["Button", "Box"] ∧
      ((moduleOf? {} {} none kindredSites = none ∧ result.sites = [] ∧ result.rules = []) ∨
      ∃ m extracted, moduleOf? {} {} none kindredSites = some m ∧ result = m.result .runtime ∧
        m.KeepsRules .runtime extracted) := by
  have hparts : (extract {} {} .runtime none kindredSites).toOption.map
      (fun r => (r.sites.map (·.processor.displayName), r.rules.map (·.2.displayName),
        decide (r.sites.map fun item => slugify
          (relativeName none none ++ ":" ++ toString (item.site.idx : Int))).Nodup)) =
        some (["Button", "Box", "Bad"], ["Button", "Box"], true) := by
    decide +kernel
  cases h : extract {} {} .runtime none kindredSites with
  | error e => simp [h, Except.toOption] at hparts
  | ok result =>
      rw [h] at hparts
      obtain ⟨hsites, hrest⟩ := Prod.mk.inj (Option.some.inj hparts)
      obtain ⟨hrules, hdigests⟩ := Prod.mk.inj hrest
      exact ⟨result, rfl, hsites, hrules, extract_keeps_rules h rfl (of_decide_eq_true hdigests)⟩

end CssExtract.Styled
