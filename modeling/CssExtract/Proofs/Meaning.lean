import CssExtract.Proofs.Exec
import Mathlib.Data.List.Forall2
import Mathlib.Tactic.SplitIfs

namespace CssExtract.Eval

open Evaluator Script Text

inductive Shape
  | scalar (s : Scalar)
  | name (name : String)
  | object (entries : List Property)
  | array (elements : List Node)
  | error (error : EvalError)

def rawShape (s : List Char) : Shape :=
  if signedNumberLength? s = some s.length then .scalar (.number (readNumber s))
  else if stringLength? s = some s.length then .scalar (.string (String.ofList (unquote s)))
  else if nameLength? isNamePart s = some s.length then .name (String.ofList s)
  else .error (.unsupportedText (String.ofList s))

def shape : Node → Shape
  | .string value _ => .scalar (.string value)
  | .number value => .scalar (.number value)
  | .bool value => .scalar (.bool value)
  | .null => .scalar .null
  | .identifier name => .name name
  | .call (.identifier name) [] => .name name
  | .call .. => .error .unsupportedCall
  | .object entries => .object entries
  | .array elements => .array elements
  | .raw source => rawShape (trim source.toList)
  | node => .error (.unsupportedNode node.kind)

def Evaluator.push (c : Container) (e : Evaluator) : Evaluator :=
  { e with graph := ⟨e.graph.containers.push c⟩ }

abbrev Evaluator.size (e : Evaluator) : Nat := e.graph.containers.size

theorem exec_evalNode (look : String → Evaluation Point) (node : Node) (e : Evaluator) :
    exec (evalNode look node) e = match shape node with
      | .scalar s => (.ok (.scalar s), e)
      | .name name => exec (look name) e
      | .error error => (.error error, e)
      | .array elements =>
        match exec (evalAll look elements) e with
        | (.ok points, e') => (.ok (.container e'.size), e'.push (.array points))
        | (.error error, e') => (.error error, e')
      | .object entries =>
        match exec (fillObject look (.container e.size) entries) (e.push (.object [])) with
        | (.ok _, e') => (.ok (.container e.size), e')
        | (.error error, e') => (.error error, e') := by
  cases node with
  | raw source =>
      simp only [evalNode, readRaw, shape, rawShape]
      split_ifs <;> rfl
  | call callee arguments => cases callee <;> cases arguments <;> simp [evalNode, shape]
  | object entries =>
      simp only [evalNode, shape, exec_bind, exec_insert, exec_pure, push]
      generalize exec (fillObject _ _ _) _ = out
      rcases out with ⟨_ | _, _⟩ <;> rfl
  | array elements =>
      simp only [evalNode, shape, exec_bind]
      rcases exec (evalAll look elements) e with ⟨_ | _, _⟩ <;> rfl
  | _ => rfl

@[simp] theorem shape_identifier (name : String) : shape (.identifier name) = .name name := rfl

@[simp] theorem shape_object (entries : List Property) : shape (.object entries) = .object entries := rfl

@[simp] theorem shape_array (elements : List Node) : shape (.array elements) = .array elements := rfl

theorem shape_ne_endless (node : Node) : shape node ≠ .error .endless := by
  cases node with
  | raw source =>
      simp only [shape, rawShape]
      split_ifs <;> simp
  | call callee arguments => cases callee <;> cases arguments <;> simp [shape]
  | _ => simp [shape]

theorem shape_of_isCall {node : Node} (h : isCall node = true) :
    (∃ name, shape node = .name name) ∨ ∃ error, shape node = .error error := by
  cases node with
  | call callee arguments => cases callee <;> cases arguments <;> simp [shape]
  | _ => simp [isCall] at h

def Shape.Flat : Shape → Prop
  | .object _ | .array _ => False
  | _ => True

theorem Shape.flat_of_isCall {node : Node} (h : isCall node = true) : (shape node).Flat := by
  rcases shape_of_isCall h with ⟨name, hs⟩ | ⟨error, hs⟩ <;> simp [hs, Shape.Flat]

theorem shape_cases (node : Node) :
    (∃ entries, node = .object entries) ∨ (∃ elements, node = .array elements) ∨ (shape node).Flat := by
  cases node with
  | object entries => exact .inl ⟨entries, rfl⟩
  | array elements => exact .inr (.inl ⟨elements, rfl⟩)
  | raw source =>
      simp only [shape, rawShape]
      split_ifs <;> exact .inr (.inr trivial)
  | call callee arguments => exact .inr (.inr (Shape.flat_of_isCall rfl))
  | _ => exact .inr (.inr trivial)

theorem shape_eq_object {node : Node} {entries : List Property} (h : shape node = .object entries) :
    node = .object entries := by
  obtain ⟨entries', rfl⟩ | ⟨elements, rfl⟩ | hflat := shape_cases node
  · rw [Shape.object.inj h]
  · simp at h
  · exact (h ▸ hflat : Shape.Flat (.object entries)).elim

theorem shape_eq_array {node : Node} {elements : List Node} (h : shape node = .array elements) :
    node = .array elements := by
  obtain ⟨entries, rfl⟩ | ⟨elements', rfl⟩ | hflat := shape_cases node
  · simp at h
  · rw [Shape.array.inj h]
  · exact (h ▸ hflat : Shape.Flat (.array elements)).elim

variable {b : Entries Node} {name x : String} {s : Shape} {node : Node} {entries : List Property}
  {elements : List Node}

/-- Evaluation may come to the name. -/
inductive Reaches (b : Entries Node) : Shape → String → Prop
  | here {name : String} : Reaches b (.name name) name
  | name {name x : String} {node : Node} (bound : b.get? name = some node) :
      Reaches b (shape node) x → Reaches b (.name name) x
  | entry {entries : List Property} {entry : Property} {x : String} (mem : entry ∈ entries) :
      Reaches b (shape entry.value) x → Reaches b (.object entries) x
  | element {elements : List Node} {node : Node} {x : String} (mem : node ∈ elements) :
      Reaches b (shape node) x → Reaches b (.array elements) x

/-- The name is reached from what another one is bound to. -/
def Depends (b : Entries Node) (name x : String) : Prop :=
  ∃ node, b.get? name = some node ∧ Reaches b (shape node) x

/-- Something that is needed cannot be evaluated. Calls as entries of objects are not needed. -/
inductive Broken (b : Entries Node) : Shape → Prop
  | error (error : EvalError) : Broken b (.error error)
  | unbound {name : String} (unbound : b.get? name = none) (notGlobal : global? name = none) :
      Broken b (.name name)
  | name {name : String} {node : Node} (bound : b.get? name = some node) :
      Broken b (shape node) → Broken b (.name name)
  | entry {entries : List Property} {entry : Property} (mem : entry ∈ entries)
      (needed : isCall entry.value = false) : Broken b (shape entry.value) → Broken b (.object entries)
  | element {elements : List Node} {node : Node} (mem : node ∈ elements) :
      Broken b (shape node) → Broken b (.array elements)

theorem Reaches.array_tail {nodes : List Node} (h : Reaches b (.array nodes) x) (node : Node) :
    Reaches b (.array (node :: nodes)) x := by
  cases h with
  | element hmem h => exact .element (.tail _ hmem) h

theorem Reaches.object_tail {rest : List Property} (h : Reaches b (.object rest) x) (entry : Property) :
    Reaches b (.object (entry :: rest)) x := by
  cases h with
  | entry hmem h => exact .entry (.tail _ hmem) h

theorem Broken.array_tail {nodes : List Node} (h : Broken b (.array nodes)) (node : Node) :
    Broken b (.array (node :: nodes)) := by
  cases h with
  | element hmem h => exact .element (.tail _ hmem) h

theorem Broken.object_tail {rest : List Property} (h : Broken b (.object rest)) (entry : Property) :
    Broken b (.object (entry :: rest)) := by
  cases h with
  | entry hmem needed h => exact .entry (.tail _ hmem) needed h

theorem reaches_name_iff : Reaches b (.name name) x ↔ name = x ∨ Depends b name x := by
  constructor
  · intro h
    cases h with
    | here => exact .inl rfl
    | name bound h => exact .inr ⟨_, bound, h⟩
  · rintro (rfl | ⟨node, bound, h⟩)
    · exact .here
    · exact .name bound h

@[simp] theorem reaches_object_iff :
    Reaches b (.object entries) x ↔ ∃ entry ∈ entries, Reaches b (shape entry.value) x := by
  constructor
  · rintro (_ | _ | ⟨hmem, h⟩)
    exact ⟨_, hmem, h⟩
  · rintro ⟨entry, hmem, h⟩
    exact .entry hmem h

@[simp] theorem reaches_array_iff :
    Reaches b (.array elements) x ↔ ∃ node ∈ elements, Reaches b (shape node) x := by
  constructor
  · rintro (_ | _ | _ | ⟨hmem, h⟩)
    exact ⟨_, hmem, h⟩
  · rintro ⟨node, hmem, h⟩
    exact .element hmem h

@[simp] theorem not_reaches_scalar (s : Scalar) : ¬ Reaches b (.scalar s) x := nofun

theorem Reaches.trans {y : String} (h : Reaches b s name) (h' : Depends b name y) : Reaches b s y := by
  obtain ⟨node, bound, hnode⟩ := h'
  induction h with
  | here => exact .name bound hnode
  | name bound' _ ih => exact .name bound' (ih bound)
  | entry mem _ ih => exact .entry mem (ih bound)
  | element mem _ ih => exact .element mem (ih bound)

theorem broken_name_iff (bound : b.get? name = some node) :
    Broken b (.name name) ↔ Broken b (shape node) := by
  constructor
  · intro h
    cases h with
    | unbound unbound => simp [bound] at unbound
    | name bound' h => exact Option.some.inj (bound.symm.trans bound') ▸ h
  · exact .name bound

theorem not_broken_scalar (s : Scalar) : ¬ Broken b (.scalar s) := nofun

theorem not_broken_of_global {s : Scalar} (unbound : b.get? name = none) (h : global? name = some s) :
    ¬ Broken b (.name name) := by
  intro hbroken
  cases hbroken with
  | unbound _ notGlobal => simp [h] at notGlobal
  | name bound => simp [unbound] at bound

/-- Where an object or an array stands: in the binding of a name or in no binding, and there as the
part at a path. -/
structure Place where
  owner : Option String
  path : List Nat
  shape : Shape

inductive Meaning
  | scalar (s : Scalar)
  | place (q : Place)

/-- What a part of a binding means that stands at a path in it. -/
inductive Means (b : Entries Node) : Option String → List Nat → Shape → Meaning → Prop
  | scalar {owner : Option String} {path : List Nat} {s : Scalar} :
      Means b owner path (.scalar s) (.scalar s)
  | global {owner : Option String} {path : List Nat} {name : String} {s : Scalar}
      (unbound : b.get? name = none) (global : global? name = some s) :
      Means b owner path (.name name) (.scalar s)
  | name {owner : Option String} {path : List Nat} {name : String} {node : Node} {m : Meaning}
      (bound : b.get? name = some node) :
      Means b (some name) [] (shape node) m → Means b owner path (.name name) m
  | object {owner : Option String} {path : List Nat} {entries : List Property} :
      Means b owner path (.object entries) (.place ⟨owner, path, .object entries⟩)
  | array {owner : Option String} {path : List Nat} {elements : List Node} :
      Means b owner path (.array elements) (.place ⟨owner, path, .array elements⟩)

variable {owner owner' : Option String} {path path' : List Nat} {m m' : Meaning} {q : Place}

theorem Means.unique (h : Means b owner path s m) (h' : Means b owner path s m') : m = m' := by
  induction h with
  | scalar | object | array => cases h'; rfl
  | global unbound global =>
      cases h' with
      | global _ global' => rw [Option.some.inj (global.symm.trans global')]
      | name bound => simp [unbound] at bound
  | name bound _ ih =>
      cases h' with
      | global unbound => simp [bound] at unbound
      | name bound' h' =>
          obtain rfl := Option.some.inj (bound.symm.trans bound')
          exact ih h'

theorem Means.name_anywhere (h : Means b owner path (.name name) m) :
    Means b owner' path' (.name name) m := by
  cases h with
  | global unbound global => exact .global unbound global
  | name bound h => exact .name bound h

/-- A place in another binding is reached by its name, and is broken only together with it. -/
theorem Means.owner_eq_or (h : Means b owner path s (.place q)) :
    q.owner = owner ∨ ∃ name, q.owner = some name ∧ Reaches b s name ∧
      (Broken b (.name name) → Broken b s) := by
  generalize hm : Meaning.place q = m at h
  induction h with
  | scalar | global => simp at hm
  | object | array =>
      obtain rfl := Meaning.place.inj hm
      exact .inl rfl
  | name bound _ ih =>
      obtain hq | ⟨x, hq, hreaches, hbroken⟩ := ih hm
      · exact .inr ⟨_, hq, .here, id⟩
      · exact .inr ⟨x, hq, .name bound hreaches, fun hx => .name bound (hbroken hx)⟩

variable {b' : Entries Node}

/-- The bindings agree on all names but one. -/
def AgreeBut (x : String) (b b' : Entries Node) : Prop := ∀ name, name ≠ x → b'.get? name = b.get? name

theorem AgreeBut.symm (h : AgreeBut x b b') : AgreeBut x b' b := fun name hne => (h name hne).symm

variable (hb : AgreeBut x b b')

include hb

theorem Reaches.congr {y : String} (h : Reaches b s y) (hs : ¬ Reaches b s x) : Reaches b' s y := by
  induction h with
  | here => exact .here
  | @name name y node bound _ ih =>
      have hne : name ≠ x := fun h => hs (h ▸ .here)
      exact .name ((hb name hne).trans bound) (ih fun h => hs (.name bound h))
  | entry mem _ ih => exact .entry mem (ih fun h => hs (.entry mem h))
  | element mem _ ih => exact .element mem (ih fun h => hs (.element mem h))

theorem Broken.congr (h : Broken b s) (hs : ¬ Reaches b s x) : Broken b' s := by
  induction h with
  | error error => exact .error error
  | @unbound name unbound notGlobal =>
      have hne : name ≠ x := fun h => hs (h ▸ .here)
      exact .unbound ((hb name hne).trans unbound) notGlobal
  | @name name node bound _ ih =>
      have hne : name ≠ x := fun h => hs (h ▸ .here)
      exact .name ((hb name hne).trans bound) (ih fun h => hs (.name bound h))
  | entry mem needed _ ih => exact .entry mem needed (ih fun h => hs (.entry mem h))
  | element mem _ ih => exact .element mem (ih fun h => hs (.element mem h))

theorem Means.congr (h : Means b owner path s m) (hs : ¬ Reaches b s x) : Means b' owner path s m := by
  induction h with
  | scalar => exact .scalar
  | @global owner path name s unbound global =>
      have hne : name ≠ x := fun h => hs (h ▸ .here)
      exact .global ((hb name hne).trans unbound) global
  | @name owner path name node m bound _ ih =>
      have hne : name ≠ x := fun h => hs (h ▸ .here)
      exact .name ((hb name hne).trans bound) (ih fun h => hs (.name bound h))
  | object => exact .object
  | array => exact .array

theorem not_reaches_congr (hs : ¬ Reaches b s x) : ¬ Reaches b' s x := by
  intro h
  generalize hx : x = y at h
  induction h with
  | here => exact hs (hx ▸ .here)
  | @name name y node bound h ih =>
      subst hx
      by_cases hne : name = x
      · exact hs (hne ▸ .here)
      · exact ih (fun h => hs (.name ((hb name hne).symm.trans bound) h)) rfl
  | entry mem _ ih => exact ih (fun h => hs (.entry mem h)) hx
  | element mem _ ih => exact ih (fun h => hs (.element mem h)) hx

theorem broken_congr (hs : ¬ Reaches b s x) : Broken b' s ↔ Broken b s :=
  ⟨fun h => h.congr hb.symm (not_reaches_congr hb hs), fun h => h.congr hb hs⟩

end CssExtract.Eval
