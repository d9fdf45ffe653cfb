import Sexp.Core.Children
import Sexp.Core.Denotation
import Sexp.Core.Removal
import Sexp.Py.Shared

/-! # Structural equality

`subtreesEqual` compares two subtrees with an explicit stack of pairs of nodes. On trees that
represent forests it ends, and decides whether the two nodes denote the same form
(`subtreesEqual_answers`). -/

namespace Sexp

open Library (OrderedForest Rose Spans Walk Form Answers LoopAnswers)

variable {left right : Tree} {F G : OrderedForest NodeId NodeType}

/-! ## The pairs of children -/

/-- **The walk over two child lists pushes the pairs at the same place**, the last one on top. -/
theorem pushPairs_answers {lc rc : Option NodeId} {ls rs : List NodeId}
    (hleft : Walk left.nextOf lc ls) (hright : Walk right.nextOf rc rs)
    (hlive : ∀ c ∈ ls, left.Live c) (hlive' : ∀ c ∈ rs, right.Live c)
    (stack : List (NodeId × NodeId)) :
    Answers (fun fuel => pushPairs fuel left right lc rc stack) ((ls.zip rs).reverse ++ stack) := by
  suffices hloop : LoopAnswers .outOfFuel (fun _ => pairPass left right) (lc, rc, stack)
      ((ls.zip rs).reverse ++ stack) from hloop.answers
  -- induction on the left list; the loop leaves at the end of the shorter one
  induction ls generalizing lc rc rs stack with
  | nil =>
      obtain rfl : lc = none := hleft
      exact .leave (.const fun _ => rfl)
  | cons l ls ih =>
      obtain ⟨rfl, hleft⟩ := hleft
      cases rs with
      | nil =>
          obtain rfl : rc = none := hright
          exact .leave (.const fun _ => rfl)
      | cons r rs =>
          obtain ⟨rfl, hright⟩ := hright
          have hloop := ih hleft hright (fun d hd => hlive d (List.mem_cons_of_mem l hd))
            (fun d hd => hlive' d (List.mem_cons_of_mem r hd)) ((l, r) :: stack)
          refine .again (.const fun _ => ?_) (by simpa using hloop)
          rw [pairPass, Tree.nextSibling_of_live (hlive l List.mem_cons_self),
            Tree.nextSibling_of_live (hlive' r List.mem_cons_self)]
          rfl

/-! ## One pass -/

section Pass

variable {n m : NodeId} {l r : Node} {fuel : ℕ} {stack : List (NodeId × NodeId)}

/-- Two atoms are compared by their texts. -/
theorem equalPass_atoms {la ra : Atom} (hl : left.get n = .ok l) (hr : right.get m = .ok r)
    (hkind : l.kind = .atom la) (hkind' : r.kind = .atom ra) :
    equalPass left right fuel ((n, m) :: stack) =
      .ok (if la.asStr ≠ ra.asStr then .leave false else .again stack) := by
  rw [equalPass, hl, hr]
  simp only [Library.ok_bind, hkind, hkind']
  split <;> rfl

/-- An atom and a list differ. -/
theorem equalPass_mixed (hl : left.get n = .ok l) (hr : right.get m = .ok r)
    (hkind : l.isAtom ≠ r.isAtom) :
    equalPass left right fuel ((n, m) :: stack) = .ok (.leave false) := by
  rw [equalPass, hl, hr]
  simp only [Library.ok_bind]
  rcases hk : l.kind with la | _ <;> rcases hk' : r.kind with ra | _ <;>
    simp [Node.isAtom, hk, hk'] at hkind ⊢

/-- Two lists with as many children are compared child by child. -/
theorem equalPass_lists (hl : left.get n = .ok l) (hr : right.get m = .ok r)
    (hkind : l.kind = .list) (hkind' : r.kind = .list) :
    equalPass left right fuel ((n, m) :: stack) =
      if l.childCount ≠ r.childCount then .ok (.leave false)
      else (do return .again (← pushPairs fuel left right l.firstChild r.firstChild stack)) := by
  rw [equalPass, hl, hr]
  simp only [Library.ok_bind, hkind, hkind']
  rfl

end Pass

/-! ## Comparing pairs -/

/-- **Pairs on the stack are compared** to the effect of `same`: when it holds, the loop goes on
with the stack below, and otherwise it answers `false`. -/
def Compares (left right : Tree) (pairs : List (NodeId × NodeId)) (same : Prop) : Prop :=
  ∀ stack answer,
    (same → LoopAnswers .outOfFuel (fun fuel => equalPass left right fuel) stack answer) →
    (¬ same → answer = false) →
    LoopAnswers .outOfFuel (fun fuel => equalPass left right fuel) (pairs ++ stack) answer

namespace Compares

variable {pairs pairs' : List (NodeId × NodeId)} {same same' : Prop}

/-- No pairs are equal. -/
theorem nil : Compares left right [] True := fun _ _ hsame _ => hsame trivial

/-- Pairs are compared one after the other. -/
theorem append (h : Compares left right pairs same) (h' : Compares left right pairs' same') :
    Compares left right (pairs ++ pairs') (same ∧ same') := by
  intro stack answer hsame hdiffers
  rw [List.append_assoc]
  refine h _ _ (fun hfirst => ?_) fun hfirst => hdiffers fun hboth => hfirst hboth.1
  exact h' _ _ (fun hsecond => hsame ⟨hfirst, hsecond⟩)
    fun hsecond => hdiffers fun hboth => hsecond hboth.2

/-- Comparing to the same effect. -/
theorem congr (h : Compares left right pairs same) (hiff : same ↔ same') :
    Compares left right pairs same' := by
  rwa [propext hiff] at h

/-- A pair that is found to differ at once. -/
theorem of_leave {pair : NodeId × NodeId} (hdiffers : ¬ same)
    (hpass : ∀ stack, Answers (fun fuel => equalPass left right fuel (pair :: stack))
      (.leave false)) : Compares left right [pair] same := by
  intro stack answer _ hfalse
  obtain rfl := hfalse hdiffers
  exact .leave (hpass stack)

/-- A pair for which others are pushed. -/
theorem of_again {pair : NodeId × NodeId} (h : Compares left right pairs same)
    (hpass : ∀ stack, Answers (fun fuel => equalPass left right fuel (pair :: stack))
      (.again (pairs ++ stack))) : Compares left right [pair] same :=
  fun stack answer hsame hdiffers => .again (hpass stack) (h stack answer hsame hdiffers)

end Compares

/-- Two lists have the same forms, when they are as long and have the same ones in all places. -/
theorem map_formOf_eq_iff {ks qs : List (Rose NodeId)} (hlength : ks.length = qs.length) :
    ks.map (formOf F.label) = qs.map (formOf G.label) ↔
      ∀ pair ∈ ks.zip qs, formOf F.label pair.1 = formOf G.label pair.2 := by
  induction ks generalizing qs with
  | nil =>
      obtain rfl : qs = [] := List.length_eq_zero_iff.mp hlength.symm
      simp
  | cons k ks ih =>
      cases qs with
      | nil => cases hlength
      | cons q qs =>
          have hrest := ih (Nat.succ.inj hlength)
          simp [hrest]

/-- Pairs of subtrees that are compared by their forms. -/
theorem compares_zip {pairs : List (Rose NodeId × Rose NodeId)}
    (h : ∀ pair ∈ pairs, Compares left right [(pair.1.root, pair.2.root)]
      (formOf F.label pair.1 = formOf G.label pair.2)) :
    Compares left right (pairs.map fun pair => (pair.1.root, pair.2.root))
      (∀ pair ∈ pairs, formOf F.label pair.1 = formOf G.label pair.2) := by
  induction pairs with
  | nil => exact Compares.nil.congr (by simp)
  | cons pair pairs ih =>
      have hfirst := h pair List.mem_cons_self
      have hrest := ih fun p hp => h p (List.mem_cons_of_mem pair hp)
      exact (hfirst.append hrest).congr (by simp)

/-- The child counts of two lists agree iff they have as many children. -/
theorem childCount_eq_iff {n m : NodeId} :
    (nodeOf F n .list).childCount = (nodeOf G m .list).childCount ↔
      (F.children n).length = (G.children m).length := by
  constructor
  · intro hcount
    have hto : ∀ (H : OrderedForest NodeId NodeType) (id : NodeId),
        (nodeOf H id .list).childCount.toNat = (H.children id).length := fun H id =>
      UInt32.toNat_ofNat_of_lt' (Tree.Represents.length_children_lt H id)
    rw [← hto F n, ← hto G m, hcount]
  · intro hlength
    simp [nodeOf, hlength]

/-- **A pair of lists is compared child by child**, when their children are compared by their
forms. -/
theorem compares_lists (hF : left.Represents F) (hG : right.Represents G) {n m : NodeId}
    {ks qs : List (Rose NodeId)} (hkids : F.children n = ks.map Rose.root)
    (hq : Spans G.children (.node m qs)) (hn : left.nodes.get n = some (nodeOf F n .list))
    (hm : right.nodes.get m = some (nodeOf G m .list))
    (hkidsCompare : ∀ k ∈ ks, ∀ q, Spans G.children q → right.Live q.root →
      Compares left right [(k.root, q.root)] (formOf F.label k = formOf G.label q)) :
    Compares left right [(n, m)] (ks.map (formOf F.label) = qs.map (formOf G.label)) := by
  have hl : left.get n = .ok (nodeOf F n .list) := Slab.index_eq_ok.mpr hn
  have hr : right.get m = .ok (nodeOf G m .list) := Slab.index_eq_ok.mpr hm
  have hkids' : G.children m = qs.map Rose.root := hq.children_root
  obtain ⟨hwalk, hlive⟩ := hF.walk_children hn
  obtain ⟨hwalk', hlive'⟩ := hG.walk_children hm
  by_cases hlength : ks.length = qs.length
  · -- the pairs of children are pushed, and compared from the last one on
    have hcount : (nodeOf F n .list).childCount = (nodeOf G m .list).childCount :=
      childCount_eq_iff.mpr (by rw [hkids, hkids', List.length_map, List.length_map, hlength])
    have hpairs : ∀ pair ∈ (ks.zip qs).reverse, Compares left right
        [(pair.1.root, pair.2.root)] (formOf F.label pair.1 = formOf G.label pair.2) := by
      intro pair hpair
      obtain ⟨hk, hq'⟩ := List.of_mem_zip (List.mem_reverse.mp hpair)
      refine hkidsCompare pair.1 hk pair.2 (hq.kids _ hq') (hlive' _ ?_)
      rw [hkids']
      exact List.mem_map_of_mem hq'
    have hsame : (∀ pair ∈ (ks.zip qs).reverse,
        formOf F.label pair.1 = formOf G.label pair.2) ↔
          ks.map (formOf F.label) = qs.map (formOf G.label) := by
      rw [map_formOf_eq_iff hlength]
      simp only [List.mem_reverse]
    refine ((compares_zip hpairs).congr hsame).of_again fun stack => ?_
    have hpush := pushPairs_answers hwalk hwalk' hlive hlive' stack
    have hzip : ((F.children n).zip (G.children m)).reverse =
        (ks.zip qs).reverse.map fun pair => (pair.1.root, pair.2.root) := by
      rw [hkids, hkids', List.zip_map, List.map_reverse]
      rfl
    rw [hzip] at hpush
    simp only [equalPass_lists hl hr rfl rfl, if_neg (not_not.mpr hcount)]
    exact .bind hpush (.const fun _ => rfl)
  · refine .of_leave ?_ fun stack => .const fun fuel => ?_
    · intro heq
      have hlengths := congrArg List.length heq
      rw [List.length_map, List.length_map] at hlengths
      exact hlength hlengths
    · have hcount : (nodeOf F n .list).childCount ≠ (nodeOf G m .list).childCount := by
        rw [Ne, childCount_eq_iff, hkids, hkids', List.length_map, List.length_map]
        exact hlength
      rw [equalPass_lists hl hr rfl rfl, if_pos hcount]

/-- **A pair of nodes is compared by their forms.** -/
theorem compares_forms (hF : left.Represents F) (hG : right.Represents G) {r q : Rose NodeId}
    (hr : Spans F.children r) (hq : Spans G.children q) (hroot : left.Live r.root)
    (hroot' : right.Live q.root) :
    Compares left right [(r.root, q.root)] (formOf F.label r = formOf G.label q) := by
  induction hr generalizing q with
  | @node n ks hkids hspans ih =>
      obtain ⟨m, qs⟩ := q
      simp only [Rose.root_node] at hroot hroot' ⊢
      obtain ⟨kind, hkind⟩ := Option.isSome_iff_exists.mp (hF.live_iff.mp hroot)
      obtain ⟨kind', hkind'⟩ := Option.isSome_iff_exists.mp (hG.live_iff.mp hroot')
      have hn : left.nodes.get n = some (nodeOf F n kind) := hF.get_of_label hkind
      have hm : right.nodes.get m = some (nodeOf G m kind') := hG.get_of_label hkind'
      have hl : left.get n = .ok (nodeOf F n kind) := Slab.index_eq_ok.mpr hn
      have hr : right.get m = .ok (nodeOf G m kind') := Slab.index_eq_ok.mpr hm
      -- atoms compare their texts, lists their children, and an atom differs from a list
      cases kind with
      | atom value =>
          rw [formOf_atom hkind]
          cases kind' with
          | atom value' =>
              rw [formOf_atom hkind', Form.atom.injEq]
              by_cases htext : value.asStr = value'.asStr
              · refine .of_again (Compares.nil.congr (by simp [htext])) fun stack => ?_
                refine .const fun fuel => ?_
                rw [equalPass_atoms hl hr rfl rfl, if_neg (not_not.mpr htext)]
                rfl
              · refine .of_leave htext fun stack => .const fun fuel => ?_
                rw [equalPass_atoms hl hr rfl rfl, if_pos htext]
          | list =>
              rw [formOf_list hkind']
              exact .of_leave nofun fun stack => .const fun fuel =>
                equalPass_mixed hl hr Bool.noConfusion
      | list =>
          rw [formOf_list hkind]
          cases kind' with
          | atom value' =>
              rw [formOf_atom hkind']
              exact .of_leave nofun fun stack => .const fun fuel =>
                equalPass_mixed hl hr Bool.noConfusion
          | list =>
              rw [formOf_list hkind', Form.list.injEq]
              refine compares_lists hF hG hkids hq hn hm fun k hk u hu hlive' => ?_
              exact ih k hk hu (hF.live_kids hkids k hk) hlive'

/-- **Structural equality.** On two nodes that denote forms, `subtreesEqual` decides whether the
forms are the same. -/
theorem subtreesEqual_answers {l r : NodeId} {form form' : Form String}
    (hleft : left.Denotes l form) (hright : right.Denotes r form') :
    ∃ answer, Answers (fun fuel => subtreesEqual fuel left l right r) answer ∧
      (answer = true ↔ form = form') := by
  obtain ⟨F, t, hF, hlive, ht, rfl, rfl⟩ := hleft
  obtain ⟨G, u, hG, hlive', hu, rfl, rfl⟩ := hright
  have hcompares := compares_forms hF hG ht hu (hF.live_iff.mpr hlive) (hG.live_iff.mpr hlive')
  by_cases hsame : formOf F.label t = formOf G.label u
  · refine ⟨true, LoopAnswers.answers ?_, by simp [hsame]⟩
    exact hcompares [] true (fun _ => .leave (.const fun _ => rfl)) fun hne => absurd hsame hne
  · refine ⟨false, LoopAnswers.answers ?_, by simp [hsame]⟩
    exact hcompares [] false (fun heq => absurd heq hsame) fun _ => rfl

/-- Nodes that denote the same form are equal. -/
theorem subtreesEqual_of_denotes {l r : NodeId} {form : Form String} (hl : left.Denotes l form)
    (hr : right.Denotes r form) :
    Answers (fun fuel => subtreesEqual fuel left l right r) true := by
  obtain ⟨answer, hanswers, hiff⟩ := subtreesEqual_answers hl hr
  rwa [hiff.mpr rfl] at hanswers

/-- Lists that are related to the same list are related. -/
theorem forall₂_of_common {α β γ : Type} {R : α → γ → Prop} {S : β → γ → Prop} {xs : List α}
    {ys : List β} {zs : List γ} (hR : List.Forall₂ R xs zs) (hS : List.Forall₂ S ys zs) :
    List.Forall₂ (fun x y => ∃ z, R x z ∧ S y z) xs ys := by
  induction hR generalizing ys with
  | nil =>
      cases hS
      exact .nil
  | cons hhead _ ih =>
      cases hS with
      | cons hhead' htail' => exact .cons ⟨_, hhead, hhead'⟩ (ih htail')

end Sexp
