import CssExtract.Proofs.Isomorphism
import CssExtract.Proofs.Recall

namespace CssExtract.Eval

open Evaluator Script

def SameOutcome (out out' : Except EvalError Point × Evaluator) : Prop :=
  match out.1, out'.1 with
  | .ok p, .ok p' => SameValue out.2.graph p out'.2.graph p'
  | .error error, .error error' => error ≠ .endless ∧ error' ≠ .endless
  | _, _ => False

section

variable {α β γ : Type}

theorem forall₂_of_common {r : α → β → Prop} {r' : α → γ → Prop} {r'' : β → γ → Prop} {as : List α}
    {bs : List β} {cs : List γ} (h : List.Forall₂ r as bs) (h' : List.Forall₂ r' as cs)
    (hr : ∀ a b c, r a b → r' a c → r'' b c) : List.Forall₂ r'' bs cs := by
  induction h generalizing cs with
  | nil =>
      cases h'
      exact .nil
  | cons hab _ ih =>
      cases h' with
      | cons hac h' => exact .cons (hr _ _ _ hab hac) (ih h')

variable {r : α → β → Prop} {entries : Entries α} {entries' : Entries β}

theorem forall₂_set {a : α} {b : β} (h : List.Forall₂ (fun x y => x.1 = y.1 ∧ r x.2 y.2) entries entries')
    (key : String) (hr : r a b) :
    List.Forall₂ (fun x y => x.1 = y.1 ∧ r x.2 y.2) (entries.set key a) (entries'.set key b) := by
  induction h with
  | nil => exact .cons ⟨rfl, hr⟩ .nil
  | @cons x y rest rest' hxy h ih =>
      obtain ⟨k, v⟩ := x
      obtain ⟨k', v'⟩ := y
      obtain ⟨rfl, hv⟩ := hxy
      by_cases hk : k = key
      · simpa [Entries.set, hk] using ⟨hr, h⟩
      · simpa [Entries.set, hk] using ⟨hv, ih⟩

theorem forall₂_setAll {new : Entries α} {new' : Entries β}
    (h : List.Forall₂ (fun x y => x.1 = y.1 ∧ r x.2 y.2) entries entries')
    (hnew : List.Forall₂ (fun x y => x.1 = y.1 ∧ r x.2 y.2) new new') :
    List.Forall₂ (fun x y => x.1 = y.1 ∧ r x.2 y.2) (entries.setAll new) (entries'.setAll new') := by
  induction hnew generalizing entries entries' with
  | nil => exact h
  | @cons x y rest rest' hxy _ ih =>
      obtain ⟨k, v⟩ := x
      obtain ⟨k', v'⟩ := y
      obtain ⟨rfl, hv⟩ := hxy
      exact ih (forall₂_set h k hv)

theorem forall₂_zip (keys : List String) {as : List α} {bs : List β} (h : List.Forall₂ r as bs) :
    List.Forall₂ (fun x y => x.1 = y.1 ∧ r x.2 y.2) (keys.zip as) (keys.zip bs) := by
  induction h generalizing keys with
  | nil => simp
  | cons hr _ ih =>
      cases keys with
      | nil => exact .nil
      | cons key keys => exact .cons ⟨rfl, hr⟩ (ih keys)

end

variable {b : Entries Node} {label label' : Labels} {e e' : Evaluator} {p p' : Point} {name x : String}
  {node : Node} {owner : Option String} {path : List Nat} {s : Shape} {q : Place} {c c' : Container}

def Corresponds (label label' : Labels) (p p' : Point) : Prop := ∃ m, Shows label p m ∧ Shows label' p' m

theorem Shows.meaning_unique {m m' : Meaning} (h : Shows label p m) (h' : Shows label p m') : m = m' := by
  cases h with
  | scalar s => cases h'; rfl
  | container hq =>
      cases h' with
      | container hq' => rw [Option.some.inj (hq.symm.trans hq')]

theorem Shows.point_unique {m : Meaning} (h : Shows label p m) (h' : Shows label p' m)
    (hinjective : ∀ {id id' q}, label id = some q → label id' = some q → id = id') : p = p' := by
  cases h with
  | scalar s => cases h'; rfl
  | container hq =>
      cases h' with
      | container hq' => rw [hinjective hq hq']

theorem Item.corresponds (h : Item b label owner path s p) (h' : Item b label' owner path s p') :
    Corresponds label label' p p' := by
  obtain ⟨-, m, hmeans, hshows⟩ := h
  obtain ⟨-, m', hmeans', hshows'⟩ := h'
  obtain rfl := hmeans.unique hmeans'
  exact ⟨m, hshows, hshows'⟩

theorem EntryItem.corresponds (h : EntryItem b label owner path node p)
    (h' : EntryItem b label' owner path node p') : Corresponds label label' p p' := by
  obtain ⟨-, hbroken, rfl⟩ | h := h <;> obtain ⟨-, hbroken', rfl⟩ | h' := h'
  · exact ⟨_, .scalar _, .scalar _⟩
  · exact absurd hbroken h'.1
  · exact absurd hbroken' h.1
  · exact h.corresponds h'

theorem Content.matches (h : Content b label q c) (h' : Content b label' q c') :
    Matches (Corresponds label label') c c' := by
  obtain ⟨owner, path, s⟩ := q
  cases s with
  | object entries =>
      obtain ⟨points, hpoints, rfl⟩ := h
      obtain ⟨points', hpoints', rfl⟩ := h'
      have hparts := forall₂_of_common hpoints hpoints' fun _ _ _ => EntryItem.corresponds
      exact .object (forall₂_setAll .nil (forall₂_zip _ hparts))
  | array elements =>
      obtain ⟨points, hpoints, rfl⟩ := h
      obtain ⟨points', hpoints', rfl⟩ := h'
      exact .array (forall₂_of_common hpoints hpoints' fun _ _ _ => Item.corresponds)
  | scalar | name | error => exact h.elim

/-- Everything the evaluator knows is what its bindings mean. -/
abbrev Keeps (label : Labels) (e : Evaluator) : Prop :=
  Sound e.bindings label (fun _ => False) (fun _ => False) e

theorem Keeps.isomorphism (h : Keeps label e) (h' : Keeps label' e') (hb : e'.bindings = e.bindings) :
    Isomorphism (Corresponds label label') e.graph e'.graph where
  unique := by
    constructor
    · rintro p p' q ⟨m, hp, hq⟩ ⟨m', hp', hq'⟩
      obtain rfl := hq.meaning_unique hq'
      exact hp.point_unique hp' h.injective
    · rintro p q q' ⟨m, hp, hq⟩ ⟨m', hp', hq'⟩
      obtain rfl := hp.meaning_unique hp'
      exact hq.point_unique hq' h'.injective
  scalar := by
    rintro s p ⟨m, hp, hq⟩
    cases hp
    cases hq
    rfl
  container := by
    rintro id p ⟨m, hp, hq⟩
    cases hp with
    | container hid =>
        cases hq with
        | @container id' _ hid' =>
            obtain ⟨c, hc, hcontent⟩ := h.content hid not_false
            obtain ⟨c', hc', hcontent'⟩ := h'.content hid' not_false
            exact ⟨id', c, c', rfl, hc, hc', hcontent.matches (hb ▸ hcontent')⟩

theorem Keeps.fresh (b : Entries Node) : Keeps (fun _ => none) { bindings := b } where
  bindings := rfl
  lt := nofun
  injective := nofun
  owned := nofun
  within := nofun
  content := nofun
  known hp := by simp [Entries.get?] at hp
  halts hp := by simp [Entries.get?] at hp
  opened _ hopen := hopen.elim

theorem Keeps.lookComes (h : Keeps label e) (htame : Tame e.bindings (.name name)) :
    LookComes e.bindings (fun _ => False) (fun _ => False) label e (maxDepth e) name
      (exec (Evaluator.lookup name) e) :=
  lookupWithin_looks (maxDepth e) label _ _ e name h ⟨htame, nofun⟩

theorem Keeps.lookup (h : Keeps label e) (htame : Tame e.bindings (.name name))
    (hend : (exec (Evaluator.lookup name) e).1 ≠ .error .endless) :
    (exec (Evaluator.lookup name) e).2.bindings = e.bindings ∧
      ∃ label', Keeps label' (exec (Evaluator.lookup name) e).2 ∧
        match (exec (Evaluator.lookup name) e).1 with
        | .ok p => Item e.bindings label' none [] (.name name) p
        | .error _ => Broken e.bindings (.name name) := by
  obtain ⟨label', -, hout⟩ := (h.lookComes htame).comes hend
  generalize exec (Evaluator.lookup name) e = out at hout ⊢
  obtain ⟨error | p, e'⟩ := out
  · obtain ⟨hbroken, hsound⟩ := hout
    have hb : e'.bindings = e.bindings := hsound.bindings
    refine ⟨hb, label', ?_, hbroken⟩
    simpa [Keeps, hb] using hsound
  · obtain ⟨hsound, hitem⟩ := hout
    have hb : e'.bindings = e.bindings := hsound.bindings
    exact ⟨hb, label', by simpa [Keeps, hb] using hsound, hitem⟩

/-- A lookup comes to an end whatever else is known, if it does in one evaluator. -/
theorem Keeps.ends (h : Keeps label e) (h' : Keeps label' e') (hb : e'.bindings = e.bindings)
    (htame : Tame e.bindings (.name name)) (hend : (exec (Evaluator.lookup name) e).1 ≠ .error .endless) :
    (exec (Evaluator.lookup name) e').1 ≠ .error .endless := by
  have hhalts := (h.lookComes htame).halted hend
  exact (h'.lookComes (hb ▸ htame)).ends (hb ▸ hhalts) (weight_lt_maxDepth e' _)

theorem Keeps.sameOutcome (h : Keeps label e) (h' : Keeps label' e') (hb : e'.bindings = e.bindings)
    (htame : Tame e.bindings (.name name)) (hend : (exec (Evaluator.lookup name) e).1 ≠ .error .endless) :
    SameOutcome (exec (Evaluator.lookup name) e) (exec (Evaluator.lookup name) e') := by
  have hend' := h.ends h' hb htame hend
  obtain ⟨hbindings, l, hkeeps, hout⟩ := h.lookup htame hend
  obtain ⟨hbindings', l', hkeeps', hout'⟩ := h'.lookup (hb ▸ htame) hend'
  generalize exec (Evaluator.lookup name) e = out at *
  generalize exec (Evaluator.lookup name) e' = out' at *
  rw [hb] at hout'
  obtain ⟨error | p, e₁⟩ := out <;> obtain ⟨error' | p', e₁'⟩ := out'
  · exact ⟨fun heq => hend (congrArg _ heq), fun heq => hend' (congrArg _ heq)⟩
  · exact absurd hout hout'.1
  · exact absurd hout' hout.1
  · exact ⟨_, hkeeps.isomorphism hkeeps' (hbindings'.trans (hb.trans hbindings.symm)),
      hout.corresponds hout'⟩

theorem agreeBut_set (x : String) (node : Node) (b : Entries Node) : AgreeBut x b (b.set x node) :=
  fun _ hne => Entries.get?_set_of_ne hne node b

theorem Item.rebind {b' : Entries Node} (hb : AgreeBut x b b') (h : Item b label owner path s p)
    (hs : ¬ Reaches b s x) (howner : owner ≠ some x) : Item b' (label.without (some x)) owner path s p := by
  obtain ⟨hfine, m, hmeans, hshows⟩ := h
  refine ⟨fun hbroken => hfine ((broken_congr hb hs).1 hbroken), m, hmeans.congr hb hs, ?_⟩
  cases hshows with
  | scalar s => exact .scalar s
  | @container id q hq =>
      refine .container (Labels.without_eq_some_iff.2 ⟨hq, ?_⟩)
      obtain hsame | ⟨name, hname, hreaches, -⟩ := hmeans.owner_eq_or
      · rwa [hsame]
      · rw [hname]
        rintro heq
        exact hs (Option.some.inj heq ▸ hreaches)

theorem EntryItem.rebind {b' : Entries Node} (hb : AgreeBut x b b') (h : EntryItem b label owner path node p)
    (hs : ¬ Reaches b (shape node) x) (howner : owner ≠ some x) :
    EntryItem b' (label.without (some x)) owner path node p := by
  obtain ⟨hcall, hbroken, rfl⟩ | h := h
  · exact .inl ⟨hcall, (broken_congr hb hs).2 hbroken, rfl⟩
  · exact .inr (h.rebind hb hs howner)

/-- Binding a name anew keeps what is known, when nothing else that is known depends on the name. -/
theorem Keeps.bind (h : Keeps label e) (node : Node)
    (hfree : ∀ name, name ≠ x → (e.known.get? name).isSome → ¬ Depends e.bindings name x) :
    Keeps (label.without (some x)) (e.bind x node) := by
  have hb : AgreeBut x e.bindings (e.bindings.set x node) := agreeBut_set x node e.bindings
  have hplace {id : Nat} {q : Place} (hq : label.without (some x) id = some q) :
      label id = some q ∧ q.owner ≠ some x ∧ ∃ name, q.owner = some name ∧ name ≠ x ∧
        (e.known.get? name).isSome ∧ ¬ Reaches e.bindings q.shape x := by
    obtain ⟨hq, hne⟩ := Labels.without_eq_some_iff.1 hq
    obtain hopen | ⟨name, howner, hknown⟩ := h.owned hq
    · exact hopen.elim
    · have hname : name ≠ x := fun heq => hne (heq ▸ howner)
      exact ⟨hq, hne, name, howner, hname, hknown, fun hreaches =>
        hfree name hname hknown (h.within hq howner hreaches)⟩
  have hknown {name : String} {p : Point} (hp : (e.bind x node).known.get? name = some p) :
      e.known.get? name = some p ∧ ¬ Reaches e.bindings (.name name) x := by
    obtain ⟨hp, hname⟩ := get?_erase_eq_some_iff.1 hp
    refine ⟨hp, fun hreaches => ?_⟩
    obtain rfl | hdepends := reaches_name_iff.1 hreaches
    · exact hname rfl
    · exact hfree name hname (by simp [hp]) hdepends
  refine { bindings := rfl, lt := fun hq => h.lt (hplace hq).1, injective := ?injective, owned := ?owned,
           within := ?within, content := ?content, known := ?known, halts := ?halts,
           opened := fun _ hopen => hopen.elim }
  case injective => exact fun hq hq' => h.injective (hplace hq).1 (hplace hq').1
  case owned =>
    intro id q hq
    obtain ⟨-, -, name, howner, hname, hknown, -⟩ := hplace hq
    obtain ⟨p, hp⟩ := Option.isSome_iff_exists.1 hknown
    refine .inr ⟨name, howner, ?_⟩
    simp [Evaluator.bind, get?_erase_eq_some_iff.2 ⟨hp, hname⟩]
  case within =>
    intro id q name y hq howner hreaches
    obtain ⟨hq, -, name', howner', hname, hknown, hclear⟩ := hplace hq
    obtain rfl := Option.some.inj (howner'.symm.trans howner)
    have hreaches := hreaches.congr hb.symm (not_reaches_congr hb hclear)
    obtain ⟨node', hbound, hreaches⟩ := h.within hq howner hreaches
    refine ⟨node', (hb _ hname).trans hbound, hreaches.congr hb ?_⟩
    exact fun hx => hfree _ hname hknown ⟨node', hbound, hx⟩
  case content =>
    -- the containers that keep their places are those of bindings that do not reach the name
    intro id q hq _
    obtain ⟨hq, hne, -, -, -, -, hclear⟩ := hplace hq
    obtain ⟨c, hc, hcontent⟩ := h.content hq not_false
    refine ⟨c, hc, hcontent.imp (fun hsub hitem => ?_) fun hsub hentry => ?_⟩
    · exact hitem.rebind hb (fun hx => hclear (hsub x hx)) hne
    · exact hentry.rebind hb (fun hx => hclear (hsub x hx)) hne
  case known =>
    intro name p hp _
    obtain ⟨hp, hclear⟩ := hknown hp
    exact (h.known hp not_false).rebind hb hclear nofun
  case halts =>
    intro name p hp _
    obtain ⟨hp, hclear⟩ := hknown hp
    exact (h.halts hp not_false).congr hb hclear

/-- Containers of an expression lose their places once it is evaluated. -/
theorem Keeps.evaluate (h : Keeps label e) {node : Node} (htame : Tame e.bindings (shape node))
    (hend : (exec (Evaluator.evaluate node) e).1 ≠ .error .endless) :
    (exec (Evaluator.evaluate node) e).2.bindings = e.bindings ∧
      ∃ label', Keeps label' (exec (Evaluator.evaluate node) e).2 := by
  have hexec : exec (Evaluator.evaluate node) e = exec (evalNode (lookupWithin (maxDepth e)) node) e := rfl
  have henter : Sound e.bindings label (Opened (fun _ => False) none) (fun _ => False) e := h.enter nofun
  have hnode := evalNode_comes (lookupWithin_looks (maxDepth e)) (.inr rfl) node label _ e [] henter
    (fun id q hq hunder => ?free) ⟨htame, fun name hopen => ?clear⟩ nofun
  case free =>
    obtain hopen | ⟨name, howner, -⟩ := h.owned hq
    · exact hopen
    · simp [hunder.1] at howner
  case clear => simp [Opened] at hopen
  rw [hexec] at hend ⊢
  obtain ⟨label', -, hout⟩ := hnode.comes hend
  generalize exec (evalNode (lookupWithin (maxDepth e)) node) e = out at hout ⊢
  obtain ⟨result, e'⟩ := out
  have hleft : Sound e.bindings label' (Opened (fun _ => False) none)
      (fun id => False ∨ OwnedBy none label' id) e' := by
    cases result with
    | error error => exact hout.2
    | ok p => exact hout.1.loosen fun _ => False.elim
  have hdrop : Sound e.bindings (label'.without none) (fun _ => False) (fun _ => False) e' :=
    hleft.drop not_false nofun nofun rfl rfl (by simp)
  have hb : e'.bindings = e.bindings := hdrop.bindings
  exact ⟨hb, _, by simpa [Keeps, hb] using hdrop⟩

inductive Request
  | bind (name : String) (node : Node)
  | lookup (name : String)
  | evaluate (node : Node)
  | values

namespace Request

def run : Request → Evaluator → Evaluator
  | .bind name node, e => e.bind name node
  | .lookup name, e => (exec (Evaluator.lookup name) e).2
  | .evaluate node, e => (exec (Evaluator.evaluate node) e).2
  | .values, e => (StateT.run Evaluator.values e).2

def runAll (requests : List Request) (e : Evaluator) : Evaluator := requests.foldl (fun e r => r.run e) e

def LookupsEnd : List String → Evaluator → Prop
  | [], _ => True
  | name :: names, e => (exec (Evaluator.lookup name) e).1 ≠ .error .endless ∧
    LookupsEnd names (exec (Evaluator.lookup name) e).2

def Ends : Request → Evaluator → Prop
  | .bind .., _ => True
  | .lookup name, e => (exec (Evaluator.lookup name) e).1 ≠ .error .endless
  | .evaluate node, e => (exec (Evaluator.evaluate node) e).1 ≠ .error .endless
  | .values, e => LookupsEnd (e.bindings.map (·.1)) e

/-- What is evaluated is tame, and no other name that is known depends on a name that is bound. -/
def Careful : Request → Evaluator → Prop
  | .bind x _, e => ∀ name, name ≠ x → (e.known.get? name).isSome → ¬ Depends e.bindings name x
  | .lookup name, e => Tame e.bindings (.name name)
  | .evaluate node, e => Tame e.bindings (shape node)
  | .values, e => ∀ name ∈ e.bindings.map (·.1), Tame e.bindings (.name name)

def Throughout (property : Request → Evaluator → Prop) : List Request → Evaluator → Prop
  | [], _ => True
  | r :: requests, e => property r e ∧ Throughout property requests (r.run e)

end Request

open Request

theorem Keeps.lookups {names : List String} (h : Keeps label e)
    (htame : ∀ name ∈ names, Tame e.bindings (.name name)) (hends : LookupsEnd names e) :
    ∃ label', Keeps label' ((valuesOf names).run e).2 := by
  induction names generalizing label e with
  | nil => exact ⟨label, h⟩
  | cons name names ih =>
      obtain ⟨hend, hrest⟩ := hends
      obtain ⟨hb, label', hkeeps, -⟩ := h.lookup (htame name (.head _)) hend
      have hlater := ih hkeeps (fun name' hmem => hb ▸ htame name' (.tail _ hmem)) hrest
      rw [Styled.run_valuesOf_cons]
      generalize exec (Evaluator.lookup name) e = out at hlater ⊢
      rcases out with ⟨_ | _, e'⟩ <;> exact hlater

theorem Keeps.request (h : Keeps label e) {r : Request} (hend : r.Ends e) (hcareful : r.Careful e) :
    ∃ label', Keeps label' (r.run e) := by
  cases r with
  | bind x node => exact ⟨_, h.bind node hcareful⟩
  | lookup name =>
      obtain ⟨-, label', hkeeps, -⟩ := h.lookup hcareful hend
      exact ⟨label', hkeeps⟩
  | evaluate node => exact (h.evaluate hcareful hend).2
  | values => exact h.lookups hcareful hend

theorem Keeps.requests {requests : List Request} (h : Keeps label e) (hends : Throughout Ends requests e)
    (hcareful : Throughout Careful requests e) : ∃ label', Keeps label' (runAll requests e) := by
  induction requests generalizing label e with
  | nil => exact ⟨label, h⟩
  | cons r requests ih =>
      obtain ⟨label', hkeeps⟩ := h.request hends.1 hcareful.1
      exact ih hkeeps hends.2 hcareful.2

/-- A lookup after requests comes out as it does in a new evaluator with the same bindings. -/
theorem lookup_after_requests (b : Entries Node) {requests : List Request} {e : Evaluator}
    (he : e = runAll requests { bindings := b }) (hends : Throughout Ends requests { bindings := b })
    (hcareful : Throughout Careful requests { bindings := b }) (hend : Ends (.lookup name) e)
    (htame : Careful (.lookup name) e) :
    SameOutcome (exec (Evaluator.lookup name) e)
      (exec (Evaluator.lookup name) { bindings := e.bindings }) := by
  obtain ⟨label, hkeeps⟩ := (Keeps.fresh b).requests hends hcareful
  subst he
  exact hkeeps.sameOutcome (.fresh _) rfl htame hend

def callEntry (key name : String) : Property := .mk (.identifier key) (.call (.identifier name) [])

def someBindings : Entries Node :=
  [("A", .object [callEntry "b" "B"]), ("B", .object [callEntry "a" "A"]), ("C", .raw "'x'"),
    ("D", .array [.identifier "C"]),
    ("E", .object [.mk (.identifier "c") (.identifier "C"), .mk (.identifier "y") (.raw "bad")])]

def someRequests : List Request := [.lookup "A", .lookup "E", .bind "C" (.raw "'y'")]

theorem reaches_of_cycle {s : Shape} (h : Reaches someBindings s x)
    (hs : s = .name "A" ∨ s = .name "B" ∨ s = .object [callEntry "b" "B"] ∨ s = .object [callEntry "a" "A"]) :
    x = "A" ∨ x = "B" := by
  induction h with
  | here => simpa using hs
  | name bound _ ih =>
      simp at hs
      obtain rfl | rfl := hs
      all_goals
        obtain rfl := Option.some.inj bound
        exact ih (by simp [shape])
  | entry mem _ ih =>
      simp at hs
      obtain rfl | rfl := hs
      all_goals
        obtain rfl := List.mem_singleton.1 mem
        exact ih (by simp [callEntry, Property.value, shape])
  | element => simp at hs

theorem tame_cycle : Tame someBindings (.name "A") where
  array hreaches hbound := by
    obtain rfl | rfl := reaches_of_cycle hreaches (.inl rfl) <;> simp [someBindings, Entries.get?] at hbound
  object hreaches _ _ hbroken := by
    have hA : Entries.get? "A" someBindings = some (.object [callEntry "b" "B"]) := rfl
    have hB : Entries.get? "B" someBindings = some (.object [callEntry "a" "A"]) := rfl
    have hfine (key name : String) : ¬ Broken someBindings (.object [callEntry key name]) := by
      rintro (_ | _ | _ | ⟨hmem, hneeded, -⟩)
      simp [List.mem_singleton.1 hmem, callEntry, Property.value, isCall] at hneeded
    obtain rfl | rfl := reaches_of_cycle hreaches (.inl rfl)
    · exact hfine "b" "B" ((broken_name_iff hA).1 hbroken)
    · exact hfine "a" "A" ((broken_name_iff hB).1 hbroken)

theorem shape_x : shape (.raw "'x'") = .scalar (.string "x") := rfl

theorem shape_y : shape (.raw "'y'") = .scalar (.string "y") := rfl

theorem shape_bad : shape (.raw "bad") = .name "bad" := rfl

theorem reaches_of_failing (h : Reaches someBindings (.name "E") x) : x = "E" ∨ x = "C" ∨ x = "bad" := by
  simpa [reaches_name_iff, Depends, someBindings, Entries.get?, Property.value, shape_x, shape_bad,
    eq_comm] using h

theorem tame_failing : Tame someBindings (.name "E") where
  array hreaches hbound := by
    obtain rfl | rfl | rfl := reaches_of_failing hreaches <;> simp [someBindings, Entries.get?] at hbound
  object hreaches hbound hdepends := by
    obtain rfl | rfl | rfl := reaches_of_failing hreaches
    · simp [reaches_name_iff, Depends, someBindings, Entries.get?, Property.value, shape_x,
        shape_bad] at hdepends
    · simp [someBindings, Entries.get?] at hbound
    · simp [someBindings, Entries.get?] at hbound

theorem reaches_of_array (h : Reaches (someBindings.set "C" (.raw "'y'")) (.name "D") x) :
    x = "D" ∨ x = "C" := by
  simpa [reaches_name_iff, Depends, someBindings, Entries.set, Entries.get?, shape_y, eq_comm] using h

theorem tame_array : Tame (someBindings.set "C" (.raw "'y'")) (.name "D") where
  array hreaches hbound hdepends := by
    obtain rfl | rfl := reaches_of_array hreaches
    · simp [reaches_name_iff, Depends, someBindings, Entries.set, Entries.get?, shape_y] at hdepends
    · simp [someBindings, Entries.set, Entries.get?] at hbound
  object hreaches hbound := by
    obtain rfl | rfl := reaches_of_array hreaches <;> simp [someBindings, Entries.set, Entries.get?] at hbound

theorem ends_of_ok {p : Point} (h : (exec (Evaluator.lookup name) e).1 = .ok p) : Ends (.lookup name) e := by
  simp [Request.Ends, h]

theorem ends_of_error {error : EvalError} (h : (exec (Evaluator.lookup name) e).1 = .error error)
    (herror : error ≠ .endless) : Ends (.lookup name) e := by
  simp [Request.Ends, h, herror]

theorem someRequests_transparent :
    Throughout Ends someRequests { bindings := someBindings } ∧
      Throughout Careful someRequests { bindings := someBindings } ∧
      Ends (.lookup "D") (runAll someRequests { bindings := someBindings }) ∧
      Careful (.lookup "D") (runAll someRequests { bindings := someBindings }) ∧
      SameOutcome (exec (Evaluator.lookup "D") (runAll someRequests { bindings := someBindings }))
        (exec (Evaluator.lookup "D")
          { bindings := (runAll someRequests { bindings := someBindings }).bindings }) := by
  have hends : Throughout Ends someRequests { bindings := someBindings } :=
    ⟨ends_of_ok rfl, ends_of_error rfl (by simp), trivial, trivial⟩
  have hcareful : Throughout Careful someRequests { bindings := someBindings } := by
    refine ⟨tame_cycle, tame_failing, ?_, trivial⟩
    intro name hname hknown hdepends
    change (Entries.get? name [("A", Point.container 0), ("B", .container 1),
      ("C", .scalar (.string "x"))]).isSome at hknown
    have hreaches : Reaches someBindings (.name name) "C" := reaches_name_iff.2 (.inr hdepends)
    have hcycle : name = "A" ∨ name = "B" := by
      simp only [Entries.get?] at hknown
      split_ifs at hknown with hA hB hC
      · exact .inl hA.symm
      · exact .inr hB.symm
      · exact absurd hC.symm hname
      · simp at hknown
    obtain rfl | rfl := hcycle
    · simpa using reaches_of_cycle hreaches (.inl rfl)
    · simpa using reaches_of_cycle hreaches (.inr (.inl rfl))
  have hend : Ends (.lookup "D") (runAll someRequests { bindings := someBindings }) := ends_of_ok rfl
  have htame : Careful (.lookup "D") (runAll someRequests { bindings := someBindings }) := tame_array
  exact ⟨hends, hcareful, hend, htame, lookup_after_requests someBindings rfl hends hcareful hend htame⟩

/-- The requests come to an end, and the lookup after them comes out another way than in a new evaluator
with the same bindings. -/
def Differs (b : Entries Node) (requests : List Request) (name : String) : Prop :=
  Throughout Ends requests { bindings := b } ∧ Ends (.lookup name) (runAll requests { bindings := b }) ∧
    ¬ SameOutcome (exec (Evaluator.lookup name) (runAll requests { bindings := b }))
      (exec (Evaluator.lookup name) { bindings := (runAll requests { bindings := b }).bindings })

theorem differs_after_bind :
    Differs [("A", .raw "B"), ("B", .raw "'x'")] [.lookup "A", .bind "B" (.raw "'y'")] "A" := by
  refine ⟨⟨ends_of_ok rfl, trivial, trivial⟩, ends_of_ok rfl, ?_⟩
  change ¬ SameValue _ (.scalar (.string "x")) _ (.scalar (.string "y"))
  rintro ⟨r, hr, hsame⟩
  simpa using hr.scalar hsame

theorem differs_after_failure :
    Differs [("A", .object [callEntry "b" "B", .mk (.identifier "y") (.raw "bad")]),
      ("B", .object [callEntry "a" "A"])] [.lookup "A"] "B" := by
  refine ⟨⟨ends_of_error rfl (by simp), trivial⟩, ends_of_ok rfl, ?_⟩
  change ¬ SameValue _ (.container 1) _ (.container 0)
  rintro ⟨r, hr, hsame⟩
  have hobject : List.Forall₂ _ [("a", Point.container 0)] [("a", Point.scalar .undefined)] :=
    hr.entries hsame rfl rfl
  cases hobject with
  | cons hentry _ =>
      obtain ⟨_, _, _, hid, -⟩ := hr.container hentry.2
      simp at hid

theorem differs_of_array :
    Differs [("A", .object [callEntry "x" "X"]), ("X", .array [.call (.identifier "A") []])]
      [.lookup "A"] "X" := by
  refine ⟨⟨ends_of_ok rfl, trivial⟩, ends_of_ok rfl, ?_⟩
  change ¬ SameValue _ (.container 1) _ (.container 2)
  rintro ⟨r, hr, hsame⟩
  have harray : List.Forall₂ r [.container 0] [.container 0] := hr.items hsame rfl rfl
  cases harray with
  | cons hitem _ =>
      have hobject : List.Forall₂ _ [("x", Point.container 1)] [("x", Point.container 1)] :=
        hr.entries hitem rfl rfl
      cases hobject with
      | cons hentry _ => simpa using hr.unique.2 hsame hentry.2

theorem lookup_not_transparent : ¬ ∀ (b : Entries Node) (requests : List Request) (name : String),
    Throughout Ends requests { bindings := b } →
    Ends (.lookup name) (runAll requests { bindings := b }) →
    SameOutcome (exec (Evaluator.lookup name) (runAll requests { bindings := b }))
      (exec (Evaluator.lookup name) { bindings := (runAll requests { bindings := b }).bindings }) := by
  intro h
  obtain ⟨hends, hend, hdiffers⟩ := differs_after_bind
  exact hdiffers (h _ _ _ hends hend)

end CssExtract.Eval
