import Sexp.Core.Denotation
import Sexp.Core.Removal
import Sexp.Serialize.Serializer

/-! # The serializer is the recursive printer

The text of a form is its atom, or the texts of its members joined by single spaces between
parentheses (`print`). The stack-based serializer answers this text for every live node of a tree
that represents a forest. -/

namespace Sexp

open Library (OrderedForest Rose Spans Walk Form Answers FuelMono Clears)

/-! ## The recursive printer -/

mutual

/-- **The text of a form.** -/
def print : Form String → String
  | .atom value => value
  | .list forms => "(" ++ printAll forms ++ ")"

/-- The texts of forms, joined by single spaces. -/
def printAll : List (Form String) → String
  | [] => ""
  | form :: forms => print form ++ printRest forms

/-- The texts of forms, each preceded by a space. -/
def printRest : List (Form String) → String
  | [] => ""
  | form :: forms => " " ++ print form ++ printRest forms

end

/-- Preceding every text by a space is joining them behind an empty first one. -/
theorem printRest_eq (forms : List (Form String)) (first : String) :
    first ++ printRest forms = " ".intercalate (first :: forms.map print) := by
  induction forms generalizing first with
  | nil => simp [printRest]
  | cons form forms ih =>
      rw [printRest, List.map_cons, String.intercalate_cons_cons, ← ih]
      simp only [String.append_assoc]

/-- The members of a list are joined by single spaces. -/
theorem printAll_eq (forms : List (Form String)) :
    printAll forms = " ".intercalate (forms.map print) := by
  cases forms with
  | nil => simp [printAll]
  | cons form forms => rw [printAll, printRest_eq, List.map_cons]

/-! ## The stack-based serializer -/

/-- The space in front of a node. -/
def space (needsSpace : Bool) : String := if needsSpace then " " else ""

variable {tree : Tree} {F : OrderedForest NodeId NodeType} {n : NodeId} {output : String}

/-- A character pushed at the end of a text. -/
theorem push_eq_append (s : String) (c : Char) : s.push c = s ++ String.singleton c := by
  rw [String.append_singleton]

/-- The frame of an atom writes its text. -/
theorem writePass_atom {m : Node} {value : Atom} (hm : tree.nodes.get n = some m)
    (hkind : m.kind = .atom value) (needsSpace : Bool) :
    Clears .outOfFuel (writePass tree) output [.node n needsSpace]
      (output ++ space needsSpace ++ value.asStr) := by
  have hpass : ∀ stack, Answers
      (fun fuel => writePass tree fuel (output, .node n needsSpace :: stack))
      (.again (output ++ space needsSpace ++ value.asStr, [] ++ stack)) := by
    refine fun stack => .const fun fuel => ?_
    simp only [writePass, Tree.get, Slab.index_eq_ok.mpr hm, Library.ok_bind, hkind]
    cases needsSpace <;> simp [space, push_eq_append]
  exact .push hpass (.nil _)

/-- The closing frame writes a parenthesis. -/
theorem writePass_close :
    Clears .outOfFuel (writePass tree) output [.close] (output ++ ")") := by
  have hpass : ∀ stack, Answers (fun fuel => writePass tree fuel (output, .close :: stack))
      (.again (output ++ ")", [] ++ stack)) :=
    fun stack => .const fun fuel => by simp [writePass, push_eq_append]
  exact .push hpass (.nil _)

/-- The frames of the children of a node: no space in front of the first one. -/
def childFrames : List NodeId → List Frame
  | [] => []
  | c :: cs => .node c false :: cs.map fun c => .node c true

/-- The frames of one more child at the end. -/
theorem childFrames_append (cs : List NodeId) (c : NodeId) :
    childFrames (cs ++ [c]) = childFrames cs ++ [.node c (!cs.isEmpty)] := by
  cases cs with
  | nil => rfl
  | cons d cs => simp [childFrames]

/-- The backward walk over the children of a node pushes their frames. -/
theorem map_frames_eq {cursor : Option NodeId} {l : List NodeId}
    (hwalk : Walk tree.prevOf cursor l.reverse) :
    l.map (fun c => Frame.node c (tree.prevOf c).isSome) = childFrames l := by
  -- from the last child on, which the walk meets first
  induction l using List.reverseRecOn generalizing cursor with
  | nil => rfl
  | append_singleton cs c ih =>
      rw [List.reverse_append, List.reverse_singleton, List.singleton_append] at hwalk
      obtain ⟨-, hrest⟩ := hwalk
      have hprev : (tree.prevOf c).isSome = !cs.isEmpty := by
        rw [hrest.start_eq]
        cases cs <;> simp
      rw [List.map_append, ih hrest, childFrames_append, List.map_singleton, hprev]

/-- The frame of a list opens it and pushes the frames of its children and of its end. -/
theorem writePass_list (h : tree.Represents F) (hlabel : F.label n = some .list)
    (needsSpace : Bool) {output' : String}
    (hkids : Clears .outOfFuel (writePass tree) (output ++ space needsSpace ++ "(")
      (childFrames (F.children n)) output') :
    Clears .outOfFuel (writePass tree) output [.node n needsSpace] (output' ++ ")") := by
  have hm : tree.nodes.get n = some (nodeOf F n .list) := h.get_of_label hlabel
  have hpass : ∀ stack, Answers
      (fun fuel => writePass tree fuel (output, .node n needsSpace :: stack))
      (.again (output ++ space needsSpace ++ "(",
        (childFrames (F.children n) ++ [.close]) ++ stack)) := by
    intro stack
    have hwalk := (h.isChildList hm).backward
    have hpush := pushChildren_children (fun child prev => Frame.node child prev.isSome)
      (F.children n) (F.children n).getLast? (.close :: stack) hwalk
      fun c hc => h.live_iff.mpr (F.live_child (F.mem_children.mp hc))
    rw [map_frames_eq hwalk] at hpush
    refine .bind (.const fun _ => Slab.index_eq_ok.mpr hm) ?_
    refine .bind (.const fun _ => ?_) (.bind hpush (.const fun _ => ?_))
    · rw [Tree.lastChild, Tree.get, Slab.index_eq_ok.mpr hm]
      rfl
    · cases needsSpace <;> simp [space, push_eq_append]
  exact .push hpass (hkids.append writePass_close)

/-- The frames of siblings write their texts, each preceded by a space. -/
theorem writePass_rest {ks : List (Rose NodeId)}
    (hks : ∀ k ∈ ks, ∀ output needsSpace,
      Clears .outOfFuel (writePass tree) output [.node k.root needsSpace]
        (output ++ space needsSpace ++ print (formOf F.label k)))
    (output : String) :
    Clears .outOfFuel (writePass tree) output (ks.map fun k => .node k.root true)
      (output ++ printRest (ks.map (formOf F.label))) := by
  induction ks generalizing output with
  | nil => simpa [printRest] using Clears.nil output
  | cons k ks ih =>
      have hk := hks k List.mem_cons_self output true
      have hrest := ih (fun q hq => hks q (List.mem_cons_of_mem k hq))
        (output ++ space true ++ print (formOf F.label k))
      have := hk.append hrest
      simpa [printRest, space, String.append_assoc] using this

/-- **The frame of a node writes the text of its form.** -/
theorem writePass_clears (h : tree.Represents F) {r : Rose NodeId} (hr : Spans F.children r)
    (hroot : tree.Live r.root) (output : String) (needsSpace : Bool) :
    Clears .outOfFuel (writePass tree) output [.node r.root needsSpace]
      (output ++ space needsSpace ++ print (formOf F.label r)) := by
  induction hr generalizing output needsSpace with
  | @node n ks hkids hspans ih =>
      obtain ⟨kind, hlabel⟩ := Option.isSome_iff_exists.mp (h.live_iff.mp hroot)
      rw [Rose.root_node] at hlabel ⊢
      have hm : tree.nodes.get n = some (nodeOf F n kind) := h.get_of_label hlabel
      rcases kind with value | _
      · rw [formOf_atom hlabel, print]
        exact writePass_atom hm rfl needsSpace
      · have hks : ∀ k ∈ ks, ∀ output needsSpace,
            Clears .outOfFuel (writePass tree) output [.node k.root needsSpace]
              (output ++ space needsSpace ++ print (formOf F.label k)) := fun k hk =>
          ih k hk (h.live_kids hkids k hk)
        rw [formOf_list hlabel, print, ← String.append_assoc, ← String.append_assoc]
        refine writePass_list h hlabel needsSpace ?_
        rw [hkids]
        -- the first child is written without a space in front, the others with one
        rcases ks with _ | ⟨k, ks⟩
        · simpa [printAll, childFrames] using Clears.nil _
        · have hfirst := hks k List.mem_cons_self (output ++ space needsSpace ++ "(") false
          have hrest := writePass_rest (fun q hq => hks q (List.mem_cons_of_mem k hq))
            (output ++ space needsSpace ++ "(" ++ space false ++ print (formOf F.label k))
          have := hfirst.append hrest
          simpa [printAll, childFrames, space, String.append_assoc, Function.comp_def] using this

/-- **The stack-based serializer equals the recursive printer.** On a tree that represents a
forest `serialize_node` answers the text of the form that the node denotes. -/
theorem serializeNode_answers {form : Form String} (h : tree.Denotes n form) :
    Answers (fun fuel => serializeNode fuel tree n) (print form) := by
  obtain ⟨F, r, hF, hlive, hr, rfl, rfl⟩ := h
  have hclears := writePass_clears hF hr (hF.live_iff.mpr hlive) "" false
  rw [space, if_neg Bool.false_ne_true, String.append_empty, String.empty_append] at hclears
  exact (hclears.loopAnswers (.const fun _ => rfl)).answers

/-- More fuel does not change what a pass of the serializer does. -/
theorem writePass_mono (tree : Tree) (s : String × List Frame) :
    FuelMono fun fuel => writePass tree fuel s := by
  rcases s with ⟨output, _ | ⟨⟨id, needsSpace⟩ | _, stack⟩⟩
  · exact .const _
  · refine .bind (.const _) fun m => ?_
    rcases m.kind with value | _
    · exact .const _
    · exact .bind (.const _) fun _ => .bind (pushChildren_mono _ _ _ _) fun _ => .const _
  · exact .const _

/-- More fuel does not change the text of a node. -/
theorem serializeNode_mono (tree : Tree) (n : NodeId) :
    FuelMono fun fuel => serializeNode fuel tree n :=
  .iterate (fun s => writePass_mono tree s) _

/-! ## More nodes

Serializing reads nodes that it reaches and nothing else: a tree with all nodes of another one gives
every text that the other one gives. -/

/-- **Every node of `tree` is one of `tree'`**, unchanged. -/
def Tree.Extends (tree tree' : Tree) : Prop :=
  ∀ id m, tree.nodes.get id = some m → tree'.nodes.get id = some m

section Extends

variable {tree' : Tree} {fuel : Nat}

/-- What is read in a tree is read in a larger one. -/
theorem Tree.Extends.get_eq (h : tree.Extends tree') {id : NodeId} {m : Node}
    (hm : tree.get id = .ok m) : tree'.get id = .ok m :=
  Slab.index_eq_ok.mpr (h id m (Slab.index_eq_ok.mp hm))

/-- What a backward walk pushes it pushes in a larger tree. -/
theorem Tree.Extends.pushChildren {α : Type} {frame : NodeId → Option NodeId → α}
    {cursor : Option NodeId} {stack stack' : List α} (h : tree.Extends tree')
    (hpush : Sexp.pushChildren fuel tree frame cursor stack = .ok stack') :
    Sexp.pushChildren fuel tree' frame cursor stack = .ok stack' := by
  refine Library.iterate_weaken ?_ le_rfl hpush
  rintro ⟨_ | c, seen⟩ pass hpass
  · exact hpass
  · obtain ⟨prev, hread, hpure⟩ := Library.bind_eq_ok.mp hpass
    obtain ⟨m, hm, hprev⟩ := Library.bind_eq_ok.mp hread
    have hread' : tree'.prevSibling c = .ok prev :=
      Library.bind_eq_ok.mpr ⟨m, h.get_eq hm, hprev⟩
    exact Library.bind_eq_ok.mpr ⟨prev, hread', hpure⟩

/-- What a pass of the serializer does it does in a larger tree. -/
theorem Tree.Extends.writePass {s : String × List Frame}
    {pass : Library.Pass (String × List Frame) String} (h : tree.Extends tree')
    (hpass : Sexp.writePass tree fuel s = .ok pass) :
    Sexp.writePass tree' fuel s = .ok pass := by
  rcases s with ⟨output, _ | ⟨⟨id, needsSpace⟩ | _, stack⟩⟩
  · exact hpass
  · obtain ⟨m, hm, hrest⟩ := Library.bind_eq_ok.mp hpass
    refine Library.bind_eq_ok.mpr ⟨m, h.get_eq hm, ?_⟩
    rcases hkind : m.kind with value | _
    · simpa only [hkind] using hrest
    · simp only [hkind] at hrest ⊢
      obtain ⟨cursor, hread, hrest⟩ := Library.bind_eq_ok.mp hrest
      obtain ⟨stack', hpush, hpure⟩ := Library.bind_eq_ok.mp hrest
      obtain ⟨k, hk, hcursor⟩ := Library.bind_eq_ok.mp hread
      have hread' : tree'.lastChild id = .ok cursor :=
        Library.bind_eq_ok.mpr ⟨k, h.get_eq hk, hcursor⟩
      rw [hread', Library.ok_bind, h.pushChildren hpush, Library.ok_bind]
      exact hpure
  · exact hpass

/-- **A text stays the text of a node** when nodes are added to the tree. -/
theorem Tree.Extends.serializeNode {text : String} (h : tree.Extends tree')
    (htext : Sexp.serializeNode fuel tree n = .ok text) :
    Sexp.serializeNode fuel tree' n = .ok text :=
  Library.iterate_weaken (fun _ _ hpass => h.writePass hpass) le_rfl htext

end Extends

end Sexp
