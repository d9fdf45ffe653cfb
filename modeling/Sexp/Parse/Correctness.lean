import Sexp.Parse.Lexing
import Sexp.Parse.Reading

/-! # The parser accepts its grammar

`parse` answers on every text. It accepts exactly the texts whose tokens are those of at most one
form, and tells the three kinds of malformed texts apart: a closing parenthesis without an opening
one, an opening parenthesis without a closing one, several top-level forms. The tree that it builds
is the tree of the form when there are keys for all of its nodes, at most `2 ^ 32`. -/

namespace Sexp

open Library (OrderedForest Rose Form Answers LoopAnswers FuelMono InOrder NoStray depth nodeCount)

/-! ## The loop reads the token sequence -/

/-- The loop of the parser, on a text whose token sequence it can read. -/
theorem parsePass_answers (n : ℕ) (cs : List Char) (hn : cs.length ≤ n) (building : Building)
    (result : Except ParseError Building) (h : building.run (lex cs) = .ok result) :
    LoopAnswers .outOfFuel (fun _ => parsePass) (⟨String.ofList cs⟩, building) result := by
  -- induction on a bound of the length: every token takes at least one character
  induction n generalizing cs building with
  | zero =>
      obtain rfl : cs = [] := List.length_eq_zero_iff.mp (by omega)
      rw [lex_nil] at h
      obtain rfl : .ok building = result := by simpa [Building.run] using h
      refine .leave (.const fun _ => ?_)
      rw [parsePass, next_eq]
      rfl
  | succ n ih =>
      rcases hstep : lexStep cs with _ | ⟨token, rest⟩
      · rw [lex_of_none hstep] at h
        obtain rfl : .ok building = result := by simpa [Building.run] using h
        refine .leave (.const fun _ => ?_)
        rw [parsePass, next_eq, String.toList_ofList, lexNext, hstep]
        rfl
      · rw [lex_of_some hstep, Building.run] at h
        obtain ⟨outcome, htoken, h⟩ := Library.bind_eq_ok.mp h
        rcases outcome with error | building'
        · obtain rfl : .error error = result := by simpa using h
          refine .leave (.const fun _ => ?_)
          rw [parsePass, next_eq, String.toList_ofList, lexNext, hstep, Library.ok_bind]
          simp only [htoken, Library.ok_bind]
          rfl
        · have hlength := length_lexStep hstep
          refine .again (.const fun _ => ?_) (ih rest (by omega) building' h)
          rw [parsePass, next_eq, String.toList_ofList, lexNext, hstep, Library.ok_bind]
          simp only [htoken, Library.ok_bind]
          rfl

/-- `parse` answers the error that a token raises. -/
theorem parse_answers_error {s : String} {error : ParseError}
    (hrun : Building.new.run (tokensOf s) = .ok (.error error)) :
    Answers (fun fuel => parse fuel s) (.error error) := by
  have hloop := parsePass_answers s.toList.length s.toList le_rfl _ _ hrun
  rw [String.ofList_toList] at hloop
  exact .bind hloop.answers (.const fun _ => rfl)

/-- `parse` answers what it makes of the nodes built. -/
theorem parse_answers_ok {s : String} {building : Building} {result : Except ParseError Tree}
    (hrun : Building.new.run (tokensOf s) = .ok (.ok building))
    (hfinish : building.finish = .ok result) : Answers (fun fuel => parse fuel s) result := by
  have hloop := parsePass_answers s.toList.length s.toList le_rfl _ _ hrun
  rw [String.ofList_toList] at hloop
  exact .bind hloop.answers (.const fun _ => hfinish)

/-- More fuel does not change the result of `parse`. -/
theorem parse_mono (s : String) : FuelMono fun fuel => parse fuel s := by
  refine .bind (.iterate_const _ _) fun outcome => ?_
  rcases outcome <;> exact .const _

/-! ## Malformed texts -/

/-- **A stray closing parenthesis** is reported when it is read. -/
theorem parse_stray {s : String} (hstray : ¬ NoStray (tokensOf s)) :
    Answers (fun fuel => parse fuel s) (.error .strayClosingParenthesis) := by
  rw [Library.noStray_iff, not_not] at hstray
  exact parse_answers_error (Building.run_stray Building.inStep_new hstray)

/-- **An unclosed parenthesis** is reported at the end of the text. -/
theorem parse_unclosed {s : String} (hstray : NoStray (tokensOf s))
    (hdepth : 0 < depth (tokensOf s)) :
    Answers (fun fuel => parse fuel s) (.error .unclosedParenthesis) := by
  obtain ⟨⟨current, outer⟩, hread⟩ :=
    Option.ne_none_iff_exists'.mp (Library.noStray_iff.mp hstray)
  have hlength := Library.length_of_read hread
  obtain ⟨building, hrun, hstep, -⟩ := Building.run_of_read Building.inStep_new hread
  have hrun' := hrun []
  rw [List.append_nil] at hrun'
  refine parse_answers_ok hrun' ?_
  have hne : building.openLists.isEmpty = false := by
    rw [List.isEmpty_eq_false_iff, ← List.length_pos_iff, hstep.open_eq]
    rw [List.length_nil] at hlength
    omega
  rw [Building.finish, hne]
  rfl

/-- Behind a sequence of forms no list is open, and each of them is a top-level form. -/
theorem run_topLevel {s : String} {forms : List (Form String)}
    (hs : tokensOf s = Form.tokensAll forms) :
    ∃ building, Building.new.run (tokensOf s) = .ok (.ok building) ∧ building.openLists = [] ∧
      building.topLevel.length = forms.length := by
  have hread := Library.read_tokensAll_eq forms
  obtain ⟨building, hrun, hstep, -⟩ := Building.run_of_read Building.inStep_new hread
  have hrun' := hrun []
  rw [List.append_nil, ← hs] at hrun'
  refine ⟨building, hrun', hstep.open_nil_iff.mpr rfl, hstep.top_eq.trans ?_⟩
  exact List.length_reverse

/-- **Several top-level forms** are reported at the end of the text. -/
theorem parse_multiple {s : String} {forms : List (Form String)}
    (hs : tokensOf s = Form.tokensAll forms) (hmultiple : 2 ≤ forms.length) :
    Answers (fun fuel => parse fuel s) (.error .multipleTopLevelForms) := by
  obtain ⟨building, hrun, hopen, hlength⟩ := run_topLevel hs
  refine parse_answers_ok hrun ?_
  rw [Building.finish, hopen]
  match htop : building.topLevel with
  | [] => simp [htop] at hlength; omega
  | [_] => simp [htop] at hlength; omega
  | _ :: _ :: _ => rfl

/-- **A text of at most one form** is accepted. -/
theorem parse_accepts {s : String} {forms : List (Form String)}
    (hs : tokensOf s = Form.tokensAll forms) (hsingle : forms.length ≤ 1) :
    ∃ tree, Answers (fun fuel => parse fuel s) (.ok tree) := by
  obtain ⟨building, hrun, hopen, hlength⟩ := run_topLevel hs
  match htop : building.topLevel with
  | [] => exact ⟨_, parse_answers_ok hrun (by rw [Building.finish, hopen, htop]; rfl)⟩
  | [root] => exact ⟨_, parse_answers_ok hrun (by rw [Building.finish, hopen, htop]; rfl)⟩
  | _ :: _ :: _ => simp [htop] at hlength; omega

/-! ## Balanced texts -/

/-- The state behind a sequence of forms. -/
theorem run_forms (forms : List (Form String)) (hfew : Form.sizeAll forms ≤ 2 ^ 32) :
    ∃ (building : Building) (G : OrderedForest NodeId NodeType) (rs : List (Rose NodeId)),
      Building.new.run (Form.tokensAll forms) = .ok (.ok building) ∧
      Building.new.Extends building OrderedForest.empty G rs forms ∧
      InOrder Key.slot (Rose.idsAll rs) := by
  obtain ⟨building, G, rs, hrun, hextends, horder⟩ :=
    Building.run_tokensAll forms _ _ Building.sound_new (by
      change 0 + _ ≤ _
      omega)
  have hrun' := hrun []
  rw [List.append_nil] at hrun'
  exact ⟨building, G, rs, hrun', hextends, horder⟩

/-- **A text without tokens** is the bare empty list. -/
theorem parse_empty {s : String} (hs : tokensOf s = []) {tree : Tree}
    (hbare : Tree.newBare = .ok tree) : Answers (fun fuel => parse fuel s) (.ok tree) := by
  have hrun : Building.new.run (tokensOf s) = .ok (.ok Building.new) := by
    rw [hs]
    rfl
  refine parse_answers_ok hrun ?_
  have hfinish : Building.new.finish = Tree.newBare >>= fun tree => pure (.ok tree) := rfl
  rw [hfinish, hbare]
  rfl

/-- **The tree of a form**: well-formed, with a parentless root that denotes the form, leaf atoms,
no free slot and one node for each node of the form. -/
structure Tree.Spells (tree : Tree) (form : Form String) : Prop where
  /-- The links are consistent. -/
  wellFormed : tree.WellFormed
  /-- The root has no parent. -/
  root_parentless : tree.parentOf tree.root = none
  /-- No slot is free. -/
  free_eq : tree.nodes.free = []
  /-- The nodes are the nodes of the form. -/
  len_eq : tree.len = form.size
  /-- Atoms are leaves. -/
  leafAtoms : tree.LeafAtoms
  /-- The root denotes the form. -/
  denotes : tree.Denotes tree.root form
  /-- The tree is not the implicit one of an empty text. -/
  bare_eq : tree.bare = false

/-- **A text with one form** is the tree of that form, and its nodes are numbered in pre-order. -/
theorem parse_form_numbered {s : String} {form : Form String} (hs : tokensOf s = form.tokens)
    (hfew : form.size ≤ 2 ^ 32) :
    ∃ tree, Answers (fun fuel => parse fuel s) (.ok tree) ∧ tree.Spells form ∧
      ∃ shape, tree.Numbered shape := by
  obtain ⟨building, G, rs, hrun, h, horder⟩ := run_forms [form] (by simpa using hfew)
  have hforms := h.forms_eq
  obtain ⟨r, rfl⟩ : ∃ r, rs = [r] := by
    rw [← List.length_eq_one_iff, ← List.length_map, hforms]
    rfl
  have hmem : r.root ∈ Rose.idsAll [r] := by simpa using r.root_mem_ids
  have hrep : (Tree.fromRaw building.nodes r.root).Represents G := h.sound.represents
  have hlive : (G.label r.root).isSome := h.grows.live_new _ hmem
  have hfinish : building.finish = .ok (.ok (Tree.fromRaw building.nodes r.root)) := by
    have htop : building.topLevel = [r.root] := h.topLevel_eq
    rw [Building.finish, h.openLists_eq, htop]
    rfl
  rw [Form.tokensAll_cons, Form.tokensAll_nil, List.append_nil, ← hs] at hrun
  have hlength : building.nodes.slots.length = form.size := by
    rw [h.length_eq]
    simp [Building.new, Slab.new]
  have hlives : ∀ m, (G.label m).isSome ↔ m ∈ r.ids := by
    intro m
    by_cases hm : m ∈ Rose.idsAll [r]
    · exact iff_of_true (h.grows.live_new m hm) (by simpa using hm)
    · rw [h.grows.label_eq m hm]
      exact iff_of_false (by simp [OrderedForest.empty]) (by simpa using hm)
  refine ⟨_, parse_answers_ok hrun hfinish, ?_, _, hrep.numbered h.sound.slab h.sound.free_eq
    (hlength.trans_le hfew) (h.grows.spans r List.mem_cons_self) rfl hlives (by simpa using horder)⟩
  exact
    { wellFormed := ⟨hrep.consistent h.sound.slab, hrep.live_iff.mpr hlive⟩
      root_parentless := (hrep.parentOf_eq _).trans (h.grows.parent_root r List.mem_cons_self)
      free_eq := h.sound.free_eq
      len_eq := by
        change building.nodes.slots.length - building.nodes.free.length = _
        rw [h.sound.free_eq, hlength]
        rfl
      leafAtoms := hrep.leafAtoms_iff.mpr h.sound.leaf
      denotes := ⟨G, r, hrep, hlive, h.grows.spans r List.mem_cons_self, rfl, by
        simpa using hforms⟩
      bare_eq := rfl }

/-- A text with one form is the tree of that form. -/
theorem parse_form {s : String} {form : Form String} (hs : tokensOf s = form.tokens)
    (hfew : form.size ≤ 2 ^ 32) :
    ∃ tree, Answers (fun fuel => parse fuel s) (.ok tree) ∧ tree.Spells form := by
  obtain ⟨tree, hanswers, hspells, -⟩ := parse_form_numbered hs hfew
  exact ⟨tree, hanswers, hspells⟩

/-! ## The classification -/

/-- **What a token sequence is**: it has a stray closing parenthesis, or leaves a list open, or is
the sequence of some forms. -/
inductive Shape (ts : List Token) : Prop where
  /-- Some prefix closes more lists than it opens. -/
  | stray (hstray : ¬ NoStray ts)
  /-- More lists are opened than closed. -/
  | unclosed (hstray : NoStray ts) (hdepth : 0 < depth ts)
  /-- The sequence consists of forms. -/
  | forms (forms : List (Form String)) (hforms : ts = Form.tokensAll forms)

/-- Every token sequence has a shape. -/
theorem shape (ts : List Token) : Shape ts := by
  by_cases hstray : NoStray ts
  · by_cases hdepth : 0 < depth ts
    · exact .unclosed hstray hdepth
    · have hle : 0 ≤ depth ts := hstray ts List.prefix_rfl
      obtain ⟨forms, hforms⟩ := Library.balanced_iff_exists.mp ⟨hstray, by omega⟩
      exact .forms forms hforms
  · exact .stray hstray

/-- **What is accepted.** `parse` answers on every text, and accepts it iff it consists of at most
one form. -/
theorem parse_accepts_iff (s : String) :
    ∃ result, Answers (fun fuel => parse fuel s) result ∧
      ((∃ tree, result = .ok tree) ↔
        ∃ forms : List (Form String), forms.length ≤ 1 ∧ tokensOf s = Form.tokensAll forms) := by
  have hbalanced : ∀ forms : List (Form String), tokensOf s = Form.tokensAll forms →
      NoStray (tokensOf s) ∧ depth (tokensOf s) = 0 := fun forms hforms =>
    Library.balanced_iff_exists.mpr ⟨forms, hforms⟩
  rcases shape (tokensOf s) with hstray | ⟨hstray, hdepth⟩ | ⟨forms, hforms⟩
  · refine ⟨_, parse_stray hstray, iff_of_false (by simp) ?_⟩
    rintro ⟨forms, -, hforms⟩
    exact hstray (hbalanced forms hforms).1
  · refine ⟨_, parse_unclosed hstray hdepth, iff_of_false (by simp) ?_⟩
    rintro ⟨forms, -, hforms⟩
    exact hdepth.ne' (hbalanced forms hforms).2
  · by_cases hsingle : forms.length ≤ 1
    · obtain ⟨tree, hanswers⟩ := parse_accepts hforms hsingle
      exact ⟨_, hanswers, iff_of_true ⟨tree, rfl⟩ ⟨forms, hsingle, hforms⟩⟩
    · refine ⟨_, parse_multiple hforms (by omega), iff_of_false (by simp) ?_⟩
      rintro ⟨forms', hsingle', hforms'⟩
      rw [hforms, Library.tokensAll_inj] at hforms'
      exact hsingle (hforms' ▸ hsingle')

/-- **`parse` accepts its grammar and classifies every rejection**, on every text of fewer than
`2 ^ 32` tokens. -/
theorem parse_classifies (s : String) (hfew : (tokensOf s).length < 2 ^ 32) :
    ∃ result, Answers (fun fuel => parse fuel s) result ∧
      (result = .error .strayClosingParenthesis ↔ ∃ p, p <+: tokensOf s ∧ depth p < 0) ∧
      (result = .error .unclosedParenthesis ↔
        (¬ ∃ p, p <+: tokensOf s ∧ depth p < 0) ∧ 0 < depth (tokensOf s)) ∧
      (result = .error .multipleTopLevelForms ↔
        ∃ forms : List (Form String), 2 ≤ forms.length ∧ tokensOf s = Form.tokensAll forms) ∧
      ((∃ tree, result = .ok tree) ↔
        tokensOf s = [] ∨ ∃ form : Form String, tokensOf s = form.tokens) ∧
      ∀ tree, result = .ok tree →
        (tokensOf s = [] ∧ Tree.newBare = .ok tree) ∨
        ∃ form : Form String, (∀ form', tokensOf s = Form.tokens form' ↔ form' = form) ∧
          tree.Spells form ∧ tree.len = nodeCount (tokensOf s) := by
  have hnodes : nodeCount (tokensOf s) ≤ 2 ^ 32 :=
    le_trans (Library.nodeCount_le_length _) (le_of_lt hfew)
  have hstray_iff : (∃ p, p <+: tokensOf s ∧ depth p < 0) ↔ ¬ NoStray (tokensOf s) := by
    simp [NoStray]
  have hbalanced : ∀ forms : List (Form String), tokensOf s = Form.tokensAll forms →
      NoStray (tokensOf s) ∧ depth (tokensOf s) = 0 := fun forms hforms =>
    Library.balanced_iff_exists.mpr ⟨forms, hforms⟩
  have hsingle : ∀ form : Form String, tokensOf s = form.tokens →
      tokensOf s = Form.tokensAll [form] := fun form hform => by simp [hform]
  rw [hstray_iff]
  rcases shape (tokensOf s) with hstray | ⟨hstray, hdepth⟩ | ⟨forms, hforms⟩
  · -- a stray closing parenthesis
    have hno : ∀ forms : List (Form String), tokensOf s ≠ Form.tokensAll forms :=
      fun forms hforms => hstray (hbalanced forms hforms).1
    have hnil : tokensOf s ≠ [] := fun h => hno [] (by simp [h])
    have hone : ∀ form : Form String, tokensOf s ≠ form.tokens :=
      fun form h => hno [form] (hsingle form h)
    exact ⟨_, parse_stray hstray, by simp [hstray, hno, hnil, hone]⟩
  · -- a list that stays open
    have hno : ∀ forms : List (Form String), tokensOf s ≠ Form.tokensAll forms :=
      fun forms hforms => hdepth.ne' (hbalanced forms hforms).2
    have hnil : tokensOf s ≠ [] := fun h => hno [] (by simp [h])
    have hone : ∀ form : Form String, tokensOf s ≠ form.tokens :=
      fun form h => hno [form] (hsingle form h)
    exact ⟨_, parse_unclosed hstray hdepth, by simp [hstray, hdepth, hno, hnil, hone]⟩
  · -- a sequence of forms: none, one, or several
    obtain ⟨hstray, hdepth⟩ := hbalanced forms hforms
    have hsize : Form.sizeAll forms ≤ 2 ^ 32 := by
      rwa [hforms, Library.nodeCount_tokensAll] at hnodes
    have hunique : ∀ forms' : List (Form String),
        tokensOf s = Form.tokensAll forms' ↔ forms' = forms := fun forms' => by
      rw [hforms, Library.tokensAll_inj, eq_comm]
    have hnil : tokensOf s = [] ↔ forms = [] := by
      have := hunique []
      rwa [Form.tokensAll_nil, @eq_comm _ []] at this
    have hone : ∀ form : Form String, tokensOf s = form.tokens ↔ forms = [form] := fun form => by
      have := hunique [form]
      rwa [Form.tokensAll_cons, Form.tokensAll_nil, List.append_nil, @eq_comm _ [form]] at this
    simp only [hunique, hnil, hone]
    rcases forms with _ | ⟨form, _ | ⟨form', rest⟩⟩
    · obtain ⟨tree, hbare⟩ : ∃ tree, Tree.newBare = .ok tree := ⟨_, rfl⟩
      refine ⟨_, parse_empty (by simpa using hforms) hbare, ?_⟩
      simp [hstray, hdepth, hbare]
    · obtain ⟨tree, hanswers, hspells⟩ := parse_form (by simpa using hforms) (by simpa using hsize)
      have hlen : tree.len = nodeCount (tokensOf s) := by
        rw [hspells.len_eq, hforms, Library.nodeCount_tokensAll]
        simp
      refine ⟨_, hanswers, ?_⟩
      simp [hstray, hdepth, hspells, hlen, eq_comm]
    · refine ⟨_, parse_multiple hforms (by simp), ?_⟩
      simp [hstray, hdepth]

/-- `parse_classifies` at a list of an atom and an empty list. -/
theorem parse_classifies_list :
    ∃ tree, Answers (fun fuel => parse fuel "(a ())") (.ok tree) ∧
      tree.Spells (.list [.atom "a", .list []]) := by
  have htokens : tokensOf "(a ())" = (Form.list [.atom "a", .list []]).tokens := by
    have ha : lex ['a', ' ', '(', ')', ')'] = .atom "a" :: lex [' ', '(', ')', ')'] :=
      lex_atom (List.cons_ne_nil 'a' []) (List.forall_mem_singleton.mpr rfl) fun c hc => by
        cases hc
        rfl
    change lex ['(', 'a', ' ', '(', ')', ')'] = _
    rw [lex_left, ha, lex_space rfl, lex_left, lex_right, lex_right, lex_nil]
    simp
  obtain ⟨result, hanswers, -, -, -, hok, hspells⟩ :=
    parse_classifies "(a ())" (by rw [htokens]; simp)
  obtain ⟨tree, rfl⟩ := hok.mpr (.inr ⟨_, htokens⟩)
  refine ⟨tree, hanswers, ?_⟩
  rcases hspells tree rfl with ⟨hnil, -⟩ | ⟨form, hform, hspells, -⟩
  · simp [htokens] at hnil
  · rwa [(hform _).mp htokens]

end Sexp
