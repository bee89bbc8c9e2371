import Easel.Scope
import Mathlib.Data.List.Forall2

/-!
Which names frames bind, apart from the values. What evaluation may do to scopes is a
preorder: outer frames keep their names exactly, the innermost frame may gain some, and the
imports in course are the same. Of a frame that is pushed and dropped again no name is left.
-/

namespace Easel

namespace Frame

def SameNames (before after : Frame) : Prop :=
  ∀ name, after.binds name = before.binds name

theorem SameNames.refl (frame : Frame) : SameNames frame frame := fun _ => rfl

theorem SameNames.trans {before middle after : Frame} (first : SameNames before middle)
    (second : SameNames middle after) : SameNames before after := fun name =>
  (second name).trans (first name)

theorem binds_insert (frame : Frame) (name other : String) (value : Value) :
    (frame.insert name value).binds other = (decide (other = name) || frame.binds other) := by
  rw [binds, find?_insert]
  by_cases same : other = name
  · simp [same]
  · simp [same, binds]

theorem sameNames_insert {frame : Frame} {name : String} (bound : frame.binds name = true)
    (value : Value) : SameNames frame (frame.insert name value) := by
  intro other
  rw [binds_insert]
  by_cases same : other = name
  · subst same
    rw [bound, Bool.or_true]
  · simp [same]

end Frame

namespace Scopes

/-- What the scopes are allowed to become in the course of evaluation. -/
structure Keeps (before after : Scopes) : Prop where
  importing : after.importing = before.importing
  outer : List.Forall₂ Frame.SameNames before.outer after.outer
  current : ∀ name, before.current.binds name = true → after.current.binds name = true

/-- The innermost frame has gained no name either. -/
structure Restores (before after : Scopes) : Prop extends Keeps before after where
  same : Frame.SameNames before.current after.current

theorem sameNames_each_refl (frames : List Frame) : List.Forall₂ Frame.SameNames frames frames :=
  List.forall₂_same.mpr fun frame _ => Frame.SameNames.refl frame

theorem sameNames_each_trans {before middle after : List Frame}
    (first : List.Forall₂ Frame.SameNames before middle)
    (second : List.Forall₂ Frame.SameNames middle after) :
    List.Forall₂ Frame.SameNames before after := by
  induction first generalizing after with
  | nil => exact second
  | cons head tail induction =>
      cases second with
      | cons next others => exact .cons (head.trans next) (induction others)

theorem Keeps.refl (scopes : Scopes) : Keeps scopes scopes :=
  ⟨rfl, sameNames_each_refl scopes.outer, fun _ bound => bound⟩

theorem Keeps.trans {before middle after : Scopes} (first : Keeps before middle)
    (second : Keeps middle after) : Keeps before after where
  importing := second.importing.trans first.importing
  outer := sameNames_each_trans first.outer second.outer
  current name bound := second.current name (first.current name bound)

theorem Restores.refl (scopes : Scopes) : Restores scopes scopes :=
  ⟨.refl scopes, .refl scopes.current⟩

theorem keeps_declare (scopes : Scopes) (name : String) (value : Value) :
    Keeps scopes (scopes.declare name value) := by
  refine ⟨rfl, sameNames_each_refl scopes.outer, ?_⟩
  intro other bound
  change (scopes.current.insert name value).binds other = true
  rw [Frame.binds_insert, bound, Bool.or_true]

theorem keeps_declareEach (scopes : Scopes) (bindings : List (String × Value)) :
    Keeps scopes (scopes.declareEach bindings) := by
  induction bindings generalizing scopes with
  | nil => exact .refl scopes
  | cons binding rest induction =>
      obtain ⟨name, value⟩ := binding
      exact (keeps_declare scopes name value).trans (induction _)

theorem sameNames_each_assignIn? {name : String} {value : Value} {frames changed : List Frame}
    (found : assignIn? name value frames = some changed) :
    List.Forall₂ Frame.SameNames frames changed := by
  induction frames generalizing changed with
  | nil => cases found
  | cons frame rest induction =>
      rw [assignIn?] at found
      by_cases bound : frame.binds name = true
      · rw [if_pos bound] at found
        cases found
        exact .cons (Frame.sameNames_insert bound value) (sameNames_each_refl rest)
      · rw [if_neg bound] at found
        obtain ⟨others, foundLater, rfl⟩ := Option.map_eq_some_iff.mp found
        exact .cons (Frame.SameNames.refl frame) (induction foundLater)

theorem keeps_assign (scopes : Scopes) (name : String) (value : Value) :
    Keeps scopes (scopes.assign name value) := by
  rw [assign]
  by_cases bound : scopes.current.binds name = true
  · rw [if_pos bound]
    exact keeps_declare scopes name value
  · rw [if_neg bound]
    cases found : assignIn? name value scopes.outer with
    | none => exact keeps_declare scopes name value
    | some outer => exact ⟨rfl, sameNames_each_assignIn? found, fun _ bound => bound⟩

/-- Whatever happens in a frame of its own, dropping the frame restores the names. -/
theorem restores_pop {before after : Scopes} (kept : Keeps before.push after) :
    Restores before after.pop := by
  obtain ⟨importing, outer, -⟩ := kept
  change List.Forall₂ Frame.SameNames (before.current :: before.outer) after.outer at outer
  rw [pop]
  cases others : after.outer with
  | nil =>
      rw [others] at outer
      cases outer
  | cons frame rest =>
      rw [others] at outer
      cases outer with
      | cons same restSame => exact ⟨⟨importing, restSame, fun name bound => (same name).trans bound⟩, same⟩

theorem keeps_endImport {before after : Scopes} {name : String}
    (kept : Keeps (before.beginImport name) after) : Keeps before after.endImport := by
  refine ⟨?_, kept.outer, kept.current⟩
  change after.importing.drop 1 = before.importing
  rw [kept.importing]
  rfl

end Scopes

end Easel
