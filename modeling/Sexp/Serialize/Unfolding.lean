import Sexp.Core.Contents
import Sexp.Parse.RoundTrip

/-! # Whatever the serializer writes

On a tree that represents a forest the serializer writes the form that a node denotes. On any tree,
whatever its links are, the serializer walks backward over the children of lists; when it returns,
the node unfolds along these links to a form (`Tree.Unfolds`), and what it has written is the text
of this form (`serializeNode_unfolds`). In a tree that represents a forest a node unfolds to the
form that it denotes. -/

namespace Sexp

open Library (OrderedForest Rose Spans Walk Form)

variable {tree : Tree} {n : NodeId} {form : Form String}

/-! ## Unfolding -/

mutual

/-- **A node unfolds to a form** along the links that the serializer follows: an atom to its text, a
list to the forms of its children, read backward from the last one. -/
inductive Tree.Unfolds (tree : Tree) : NodeId → Form String → Prop where
  /-- An atom. -/
  | atom {n : NodeId} {m : Node} {value : Atom} (hm : tree.nodes.get n = some m)
      (hkind : m.kind = .atom value) : Unfolds tree n (.atom value.asStr)
  /-- A list. -/
  | list {n : NodeId} {m : Node} {children : List NodeId} {forms : List (Form String)}
      (hm : tree.nodes.get n = some m) (hkind : m.kind = .list)
      (hwalk : Walk tree.prevOf m.lastChild children.reverse)
      (hforms : UnfoldAll tree children forms) : Unfolds tree n (.list forms)

/-- **Nodes unfold to forms**, one by one. -/
inductive Tree.UnfoldAll (tree : Tree) : List NodeId → List (Form String) → Prop where
  /-- No nodes. -/
  | nil : UnfoldAll tree [] []
  /-- A node and more nodes. -/
  | cons {n : NodeId} {form : Form String} {children : List NodeId} {forms : List (Form String)}
      (hform : Unfolds tree n form) (hforms : UnfoldAll tree children forms) :
      UnfoldAll tree (n :: children) (form :: forms)

end

mutual

/-- A node unfolds to at most one form. -/
theorem Tree.Unfolds.unique {n : NodeId} {form form' : Form String} (h : tree.Unfolds n form)
    (h' : tree.Unfolds n form') : form = form' := by
  -- the content of a node decides the rule, and its links the children
  cases h with
  | atom hm hkind =>
      cases h' with
      | atom hm' hkind' =>
          rw [hm] at hm'
          cases hm'
          rw [hkind] at hkind'
          cases hkind'
          rfl
      | list hm' hkind' =>
          rw [hm] at hm'
          cases hm'
          rw [hkind] at hkind'
          cases hkind'
  | list hm hkind hwalk hforms =>
      cases h' with
      | atom hm' hkind' =>
          rw [hm] at hm'
          cases hm'
          rw [hkind] at hkind'
          cases hkind'
      | list hm' hkind' hwalk' hforms' =>
          rw [hm] at hm'
          cases hm'
          rw [← List.reverse_injective (hwalk.unique hwalk')] at hforms'
          rw [hforms.unique hforms']

/-- Nodes unfold to at most one list of forms. -/
theorem Tree.UnfoldAll.unique {children : List NodeId} {forms forms' : List (Form String)}
    (h : tree.UnfoldAll children forms) (h' : tree.UnfoldAll children forms') :
    forms = forms' := by
  cases h with
  | nil =>
      cases h'
      rfl
  | cons hform hforms =>
      cases h' with
      | cons hform' hforms' => rw [hform.unique hform', hforms.unique hforms']

end

/-! ## What the serializer writes -/

/-- **The frames that a backward walk has pushed**: one for every child that it has met. -/
theorem pushChildren_ok {α : Type} {fuel : Nat} {frame : NodeId → Option NodeId → α}
    {cursor : Option NodeId} {stack stack' : List α}
    (h : pushChildren fuel tree frame cursor stack = .ok stack') :
    ∃ l : List NodeId, Walk tree.prevOf cursor l.reverse ∧
      stack' = l.map (fun c => frame c (tree.prevOf c)) ++ stack := by
  unfold pushChildren whileLoop at h
  induction fuel generalizing cursor stack with
  | zero => cases h
  | succ fuel ih =>
      rcases cursor with _ | c
      · rw [Library.iterate_leave fuel rfl] at h
        cases h
        exact ⟨[], rfl, rfl⟩
      · rcases Library.iterate_succ_eq_ok.mp h with hleave | ⟨s, hagain, hrest⟩
        · obtain ⟨prev, -, hpure⟩ := Library.bind_eq_ok.mp hleave
          cases hpure
        · obtain ⟨prev, hread, hpure⟩ := Library.bind_eq_ok.mp hagain
          cases hpure
          obtain ⟨m, hm, hprev⟩ := Library.bind_eq_ok.mp hread
          cases hprev
          have hlink : tree.prevOf c = m.previousSibling := by
            rw [Tree.prevOf, Slab.index_eq_ok.mp hm]
            rfl
          -- the walk goes on in front of `c`
          obtain ⟨l, hwalk, rfl⟩ := ih hrest
          refine ⟨l ++ [c], ?_, ?_⟩
          · rw [List.reverse_append, List.reverse_singleton, List.singleton_append,
              Library.walk_cons, hlink]
            exact ⟨rfl, hwalk⟩
          · rw [List.map_append, List.map_singleton, hlink, List.append_assoc]
            rfl

/-- **What the frames on the stack write**, the top one first: a node the text of a form that it
unfolds to. -/
inductive Tree.Writing (tree : Tree) : List Frame → String → Prop where
  /-- An empty stack. -/
  | nil : Writing tree [] ""
  /-- The end of a list. -/
  | close {frames : List Frame} {text : String} (h : Writing tree frames text) :
      Writing tree (.close :: frames) (")" ++ text)
  /-- A node. -/
  | node {n : NodeId} {needsSpace : Bool} {form : Form String} {frames : List Frame}
      {text : String} (hform : tree.Unfolds n form) (h : Writing tree frames text) :
      Writing tree (.node n needsSpace :: frames) (space needsSpace ++ print form ++ text)

namespace Tree.Writing

variable {frames frames' : List Frame} {text output : String} {fuel fuel' : Nat}

/-- Frames write their texts one after the other. -/
theorem of_append (h : tree.Writing (frames ++ frames') text) :
    ∃ first second, text = first ++ second ∧ tree.Writing frames first ∧
      tree.Writing frames' second := by
  induction frames generalizing text with
  | nil => exact ⟨"", text, by simp, .nil, h⟩
  | cons frame frames ih =>
      cases h with
      | close hrest =>
          obtain ⟨first, second, rfl, hfirst, hsecond⟩ := ih hrest
          exact ⟨_, second, (String.append_assoc).symm, .close hfirst, hsecond⟩
      | node hform hrest =>
          obtain ⟨first, second, rfl, hfirst, hsecond⟩ := ih hrest
          exact ⟨_, second, (String.append_assoc).symm, .node hform hfirst, hsecond⟩

/-- The frames of siblings behind the first write their texts, each preceded by a space. -/
theorem siblings {cs : List NodeId} (h : tree.Writing (cs.map fun c => .node c true) text) :
    ∃ forms, tree.UnfoldAll cs forms ∧ text = printRest forms := by
  induction cs generalizing text with
  | nil =>
      cases h
      exact ⟨[], .nil, by rw [printRest]⟩
  | cons c cs ih =>
      cases h with
      | node hform hrest =>
          obtain ⟨forms, hforms, rfl⟩ := ih hrest
          refine ⟨_, .cons hform hforms, ?_⟩
          rw [printRest]
          rfl

/-- The frames of the children of a list write their texts, joined by spaces. -/
theorem children {cs : List NodeId} (h : tree.Writing (childFrames cs) text) :
    ∃ forms, tree.UnfoldAll cs forms ∧ text = printAll forms := by
  cases cs with
  | nil =>
      cases h
      exact ⟨[], .nil, by rw [printAll]⟩
  | cons c cs =>
      cases h with
      | node hform hrest =>
          obtain ⟨forms, hforms, rfl⟩ := siblings hrest
          refine ⟨_, .cons hform hforms, ?_⟩
          rw [printAll, space, if_neg Bool.false_ne_true, String.empty_append]

/-- A pass that pops the frame of a node writes the text of a form that the node unfolds to, when
what it pushes does. -/
theorem of_node {n : NodeId} {needsSpace : Bool} {s : String × List Frame}
    (hpass : writePass tree fuel (output, .node n needsSpace :: frames) = .ok (.again s))
    (h : tree.Writing s.2 text) :
    ∃ rest, s.1 ++ text = output ++ rest ∧ tree.Writing (.node n needsSpace :: frames) rest := by
  obtain ⟨m, hm, hpass⟩ := Library.bind_eq_ok.mp hpass
  have hspace : (if needsSpace = true then output.push ' ' else output) =
      output ++ space needsSpace := by
    cases needsSpace <;> simp [space, push_eq_append]
  rcases hkind : m.kind with value | _
  · simp only [hkind, hspace] at hpass
    cases hpass
    have hform := Tree.Unfolds.atom (Slab.index_eq_ok.mp hm) hkind
    refine ⟨_, ?_, .node hform h⟩
    rw [print, String.append_assoc, String.append_assoc, String.append_assoc]
  · simp only [hkind, hspace] at hpass
    obtain ⟨cursor, hlast, hpass⟩ := Library.bind_eq_ok.mp hpass
    obtain ⟨stack, hpush, hpass⟩ := Library.bind_eq_ok.mp hpass
    cases hpass
    obtain ⟨m', hm', hcursor⟩ := Library.bind_eq_ok.mp hlast
    cases hm.symm.trans hm'
    cases hcursor
    -- the frames of the children, the end of the list, and what was below
    obtain ⟨l, hwalk, rfl⟩ := pushChildren_ok hpush
    rw [map_frames_eq hwalk] at h
    obtain ⟨inner, outer, rfl, hinner, houter⟩ := h.of_append
    obtain ⟨forms, hforms, rfl⟩ := hinner.children
    cases houter with
    | close hrest =>
        have hform := Tree.Unfolds.list (Slab.index_eq_ok.mp hm) hkind hwalk hforms
        refine ⟨_, ?_, .node hform hrest⟩
        rw [print, push_eq_append]
        simp only [String.append_assoc]
        rfl

/-- **The loop of the serializer writes what the frames on its stack write.** -/
theorem of_writePass
    (h : Library.iterate Fault.outOfFuel (writePass tree fuel') fuel (output, frames) = .ok text) :
    ∃ rest, text = output ++ rest ∧ tree.Writing frames rest := by
  induction fuel generalizing output frames with
  | zero => cases h
  | succ fuel ih =>
      -- the loop leaves on the empty stack only
      rcases Library.iterate_succ_eq_ok.mp h with hleave | ⟨⟨output', frames'⟩, hagain, hrest⟩
      · rcases frames with _ | ⟨⟨n, needsSpace⟩ | _, frames⟩
        · cases hleave
          exact ⟨"", by simp, .nil⟩
        · obtain ⟨m, hm, hpass⟩ := Library.bind_eq_ok.mp hleave
          rcases hkind : m.kind with value | _
          · simp only [hkind] at hpass
            cases hpass
          · simp only [hkind] at hpass
            obtain ⟨cursor, -, hpass⟩ := Library.bind_eq_ok.mp hpass
            obtain ⟨stack, -, hpass⟩ := Library.bind_eq_ok.mp hpass
            cases hpass
        · cases hleave
      · obtain ⟨rest, rfl, hwriting⟩ := ih hrest
        rcases frames with _ | ⟨⟨n, needsSpace⟩ | _, frames⟩
        · cases hagain
        · exact hwriting.of_node hagain
        · cases hagain
          refine ⟨_, ?_, .close hwriting⟩
          rw [push_eq_append, String.append_assoc]
          rfl

end Tree.Writing

/-- **Whatever the serializer returns** for a node is the text of a form that the node unfolds to.
-/
theorem serializeNode_unfolds {fuel : Nat} {text : String}
    (h : serializeNode fuel tree n = .ok text) :
    ∃ form, tree.Unfolds n form ∧ text = print form := by
  obtain ⟨rest, rfl, hwriting⟩ := Tree.Writing.of_writePass h
  cases hwriting with
  | node hform hrest =>
      cases hrest
      refine ⟨_, hform, ?_⟩
      simp [space]

/-! ## Forms of trees that represent forests -/

/-- **In a tree that represents a forest** a live node unfolds to the form of the rose tree below
it. -/
theorem Tree.Represents.unfolds {F : OrderedForest NodeId NodeType} (hF : tree.Represents F)
    {r : Rose NodeId} (hr : Spans F.children r) (hroot : tree.Live r.root) :
    tree.Unfolds r.root (formOf F.label r) := by
  induction hr with
  | @node n ks hkids hspans ih =>
      obtain ⟨kind, hlabel⟩ := Option.isSome_iff_exists.mp (hF.live_iff.mp hroot)
      rw [Rose.root_node] at hlabel ⊢
      have hm : tree.nodes.get n = some (nodeOf F n kind) := hF.get_of_label hlabel
      rcases kind with value | _
      · rw [formOf_atom hlabel]
        exact .atom hm rfl
      · rw [formOf_list hlabel]
        refine .list hm rfl (hF.isChildList hm).backward ?_
        rw [hkids]
        -- the children one after the other
        have hlive : ∀ k ∈ ks, tree.Live k.root := hF.live_kids hkids
        have hall : ∀ ls : List (Rose NodeId), (∀ k ∈ ls, k ∈ ks) →
            tree.UnfoldAll (ls.map Rose.root) (ls.map (formOf F.label)) := by
          intro ls
          induction ls with
          | nil =>
              intro _
              exact .nil
          | cons k ls ihls =>
              intro hmem
              have hk : k ∈ ks := hmem k List.mem_cons_self
              exact .cons (ih k hk (hlive k hk))
                (ihls fun q hq => hmem q (List.mem_cons_of_mem k hq))
        exact hall ks fun _ hk => hk

/-- A node unfolds to the form that it denotes. -/
theorem Tree.Denotes.unfolds (h : tree.Denotes n form) : tree.Unfolds n form := by
  obtain ⟨F, r, hF, hlive, hr, rfl, rfl⟩ := h
  exact hF.unfolds hr (hF.live_iff.mpr hlive)

/-! ## The atoms of a form -/

/-- The content of a node is clean: a list, or an atom that is a token by itself. -/
def NodeType.Clean : NodeType → Prop
  | .atom value => CleanAtom value.asStr
  | .list => True

mutual

/-- The atoms of the form of a node are the texts of nodes. -/
theorem Tree.Unfolds.cleanTokens {n : NodeId} {form : Form String}
    (hclean : tree.Contents NodeType.Clean) (h : tree.Unfolds n form) :
    CleanTokens form.tokens := by
  cases h with
  | @atom n m value hm hkind =>
      have hatom := hclean n m hm
      rw [hkind] at hatom
      intro text htext
      rw [Form.tokens_atom, List.mem_singleton] at htext
      cases htext
      exact hatom
  | list hm hkind hwalk hforms =>
      intro text htext
      refine hforms.cleanTokens hclean text ?_
      simpa using htext

/-- The atoms of the forms of nodes are the texts of nodes. -/
theorem Tree.UnfoldAll.cleanTokens {children : List NodeId} {forms : List (Form String)}
    (hclean : tree.Contents NodeType.Clean) (h : tree.UnfoldAll children forms) :
    CleanTokens (Form.tokensAll forms) := by
  cases h with
  | nil =>
      intro text htext
      simp at htext
  | cons hform hforms =>
      intro text htext
      rw [Form.tokensAll_cons, List.mem_append] at htext
      rcases htext with htext | htext
      · exact hform.cleanTokens hclean text htext
      · exact hforms.cleanTokens hclean text htext

end

end Sexp
