import Sexp.Py.Determinism

/-! # Extracting is copying and removing

`extract` returns exactly when `clone` and then `remove` do, with the same results and the same
objects at the end, from any objects whatever. -/

namespace Sexp

open Library (Answers)

variable {w w' : World} {self : HandleRef} {h : Handle} {tree : Tree} {v : Value}

/-- **The steps of `clone`** that return. -/
theorem clone_step_iff : ApiStep w ⟨.clone self, .ok v⟩ w' ↔
    ∃ h tree copy, w.Receives self h tree ∧
      Answers (fun fuel => cloneSubtree fuel tree h.node) copy ∧
      v = .sexp w.handles.length ∧ w' = w.push copy := by
  constructor
  · rintro ⟨fuel, hcall⟩
    obtain ⟨k, hmethod, rfl⟩ := PyM.map_eq_ok.mp hcall
    obtain ⟨copy, w₁, hread, hcreate⟩ := PyM.bind_eq_ok.mp hmethod
    obtain ⟨rfl, h, tree, hrec, hclone⟩ := SExp.withTree_eq_ok.mp hread
    obtain ⟨copy', hclone, heq⟩ := Library.bind_eq_ok.mp hclone
    cases heq
    cases hcreate
    exact ⟨h, tree, copy, hrec, (cloneSubtree_mono tree h.node).answers hclone, rfl, rfl⟩
  · rintro ⟨h, tree, copy, hrec, hclone, rfl, rfl⟩
    obtain ⟨fuel, hfuel⟩ := hclone.exists_fuel
    refine ⟨fuel, PyM.map_eq_ok.mpr ⟨_, PyM.bind_eq_ok.mpr ⟨copy, w, ?_, rfl⟩, rfl⟩⟩
    exact SExp.withTree_eq_ok.mpr ⟨rfl, h, tree, hrec, by rw [hfuel]; rfl⟩

/-- **The steps of `remove`** that return. -/
theorem remove_step_iff : ApiStep w ⟨.remove self, .ok v⟩ w' ↔
    ∃ h tree tree', w.Receives self h tree ∧ h.node ≠ tree.root ∧
      Answers (fun fuel => remove fuel tree h.node) tree' ∧ v = .none ∧
      w' = w.refreshed self h tree'.bumpVersion := by
  constructor
  · rintro ⟨fuel, hcall⟩
    obtain ⟨_, hmethod, rfl⟩ := PyM.map_eq_ok.mp hcall
    obtain ⟨h, tree, tree₁, hrec, hcode, rfl⟩ := SExp.withTreeMut_eq_ok.mp hmethod
    split at hcode
    · cases hcode
    · rename_i hroot
      obtain ⟨tree', hremove, heq⟩ := Library.bind_eq_ok.mp hcode
      cases heq
      exact ⟨h, tree, tree', hrec, hroot, (remove_mono tree h.node).answers hremove, rfl, rfl⟩
  · rintro ⟨h, tree, tree', hrec, hroot, hremove, rfl, rfl⟩
    obtain ⟨fuel, hfuel⟩ := hremove.exists_fuel
    refine ⟨fuel, PyM.map_eq_ok.mpr ⟨(), SExp.withTreeMut_eq_ok.mpr
      ⟨h, tree, tree'.bumpVersion, hrec, ?_, rfl⟩, rfl⟩⟩
    rw [if_neg hroot, hfuel]
    rfl

/-- **The steps of `extract`** that return. -/
theorem extract_step_iff : ApiStep w ⟨.extract self, .ok v⟩ w' ↔
    ∃ h tree copy tree', w.Receives self h tree ∧ h.node ≠ tree.root ∧
      Answers (fun fuel => cloneSubtree fuel tree h.node) copy ∧
      Answers (fun fuel => remove fuel tree h.node) tree' ∧
      v = .sexp w.handles.length ∧ w' = (w.refreshed self h tree'.bumpVersion).push copy := by
  constructor
  · rintro ⟨fuel, hcall⟩
    obtain ⟨k, hmethod, rfl⟩ := PyM.map_eq_ok.mp hcall
    obtain ⟨copy, w₁, hwrite, hcreate⟩ := PyM.bind_eq_ok.mp hmethod
    obtain ⟨h, tree, tree₁, hrec, hcode, rfl⟩ := SExp.withTreeMut_eq_ok.mp hwrite
    split at hcode
    · cases hcode
    · rename_i hroot
      obtain ⟨⟨tree', copy'⟩, hextract, heq⟩ := Library.bind_eq_ok.mp hcode
      cases heq
      obtain ⟨copy', hclone, hextract⟩ := Library.bind_eq_ok.mp hextract
      rw [if_neg hroot] at hextract
      obtain ⟨tree'', hremove, heq⟩ := Library.bind_eq_ok.mp hextract
      cases heq
      cases hcreate
      exact ⟨h, tree, copy, tree', hrec, hroot, (cloneSubtree_mono tree h.node).answers hclone,
        (remove_mono tree h.node).answers hremove,
        by rw [World.length_handles_refreshed], rfl⟩
  · rintro ⟨h, tree, copy, tree', hrec, hroot, hclone, hremove, rfl, rfl⟩
    have hextract : Answers (fun fuel => extractSubtree fuel tree h.node) (tree', copy) := by
      refine .bind hclone ?_
      simp only [if_neg hroot]
      exact .bind hremove (.const fun _ => rfl)
    obtain ⟨fuel, hfuel⟩ := hextract.exists_fuel
    refine ⟨fuel, PyM.map_eq_ok.mpr ⟨w.handles.length, PyM.bind_eq_ok.mpr
      ⟨copy, w.refreshed self h tree'.bumpVersion, ?_, ?_⟩, rfl⟩⟩
    · refine SExp.withTreeMut_eq_ok.mpr ⟨h, tree, tree'.bumpVersion, hrec, ?_, rfl⟩
      rw [if_neg hroot, hfuel]
      rfl
    · rw [← World.length_handles_refreshed w self h tree'.bumpVersion]
      rfl

/-- A new tree leaves a receiver as it is. -/
theorem World.receives_push {w : World} {self : HandleRef} {h : Handle} {tree copy : Tree}
    (hself : self < w.handles.length) (htree : h.tree < w.trees.length) :
    (w.push copy).Receives self h tree ↔ w.Receives self h tree := by
  constructor
  · rintro ⟨hh, ht, hfresh⟩
    rw [World.push, List.getElem?_append_left hself] at hh
    rw [World.push, List.getElem?_append_left htree] at ht
    exact ⟨hh, ht, hfresh⟩
  · rintro ⟨hh, ht, hfresh⟩
    refine ⟨?_, ?_, hfresh⟩
    · rw [World.push, List.getElem?_append_left hself, hh]
    · rw [World.push, List.getElem?_append_left htree, ht]

/-- Creating a tree and writing another one can be done in either order. -/
theorem World.refreshed_push {w : World} {self : HandleRef} {h : Handle}
    (hself : self < w.handles.length) (htree : h.tree < w.trees.length) (tree copy : Tree) :
    (w.push copy).refreshed self h tree = (w.refreshed self h tree).push copy := by
  simp only [World.push, World.refreshed, List.length_set, List.set_append_left _ _ htree,
    List.set_append_left _ _ hself]
  split <;> rfl

/-- **`extract` is `clone` and then `remove`**: from any objects, it returns exactly when these two
do, it returns what `clone` returns, and it leads to the same objects. -/
theorem extract_iff_clone_remove : ApiStep w ⟨.extract self, .ok v⟩ w' ↔
    ∃ w₁, ApiStep w ⟨.clone self, .ok v⟩ w₁ ∧ ApiStep w₁ ⟨.remove self, .ok .none⟩ w' := by
  rw [extract_step_iff]
  constructor
  · rintro ⟨h, tree, copy, tree', hrec, hroot, hclone, hremove, hv, rfl⟩
    have hself := (List.getElem?_eq_some_iff.mp hrec.handle_eq).1
    have htree := (List.getElem?_eq_some_iff.mp hrec.tree_eq).1
    refine ⟨w.push copy, clone_step_iff.mpr ⟨h, tree, copy, hrec, hclone, hv, rfl⟩, ?_⟩
    exact remove_step_iff.mpr ⟨h, tree, tree', (World.receives_push hself htree).mpr hrec, hroot,
      hremove, rfl, (World.refreshed_push hself htree _ _).symm⟩
  · rintro ⟨w₁, hclone, hremove⟩
    obtain ⟨h, tree, copy, hrec, hcopy, hv, rfl⟩ := clone_step_iff.mp hclone
    obtain ⟨h', tree₁, tree', hrec₁, hroot, hremove, -, rfl⟩ := remove_step_iff.mp hremove
    have hself := (List.getElem?_eq_some_iff.mp hrec.handle_eq).1
    have htree := (List.getElem?_eq_some_iff.mp hrec.tree_eq).1
    -- the receiver of both calls is the same
    have hrec' : (w.push copy).Receives self h tree :=
      (World.receives_push hself htree).mpr hrec
    obtain rfl := Option.some.inj (hrec'.handle_eq.symm.trans hrec₁.handle_eq)
    obtain rfl := Option.some.inj (hrec'.tree_eq.symm.trans hrec₁.tree_eq)
    exact ⟨h, tree, copy, tree', hrec, hroot, hcopy, hremove, hv,
      World.refreshed_push hself htree _ _⟩

end Sexp
