import Mathlib.Data.List.Pairwise
import Stencil.Text.Edit

/-! # Edits in any order

A row of patches is a text with some of its parts replaced. As edits the patches may come in any order:
sorting brings each order into one (`Edit.sort_eq_of_perm`), in which an edit leaves the places of the later
ones alone, and so applying them all gives the text of the patches (`Patch.applyAll_of_perm`). -/
set_option autoImplicit false
namespace Stencil

namespace Text

theorem takeBytes_append (s t : Text) : takeBytes (size s) (s ++ t) = s := by
  induction s with
  | nil =>
      cases t with
      | nil => rfl
      | cons c t => rw [List.nil_append, size_nil, takeBytes, if_neg (Nat.not_le.2 (Char.utf8Size_pos c))]
  | cons c s ih =>
      rw [List.cons_append, takeBytes, size_cons, if_pos (Nat.le_add_right _ _),
        Nat.add_sub_cancel_left, ih]

theorem dropBytes_append (s t : Text) : dropBytes (size s) (s ++ t) = t := by
  rw [dropBytes, takeBytes_append, List.drop_left]

theorem eq_nil_of_size {t : Text} (h : size t = 0) : t = [] :=
  List.length_eq_zero_iff.1 (Nat.le_zero.1 (h ▸ length_le_size t))

end Text

namespace Edit

/-! ## Sorting -/

theorem insert_perm (e : Edit) (es : List Edit) : (insert e es).Perm (e :: es) := by
  induction es with
  | nil => exact .refl _
  | cons f es ih =>
      rw [insert]
      split
      · exact .refl _
      · exact (ih.cons f).trans (.swap e f es)

theorem sort_perm (es : List Edit) : (sort es).Perm es := by
  induction es with
  | nil => exact .refl _
  | cons e es ih => exact (insert_perm e (sort es)).trans (ih.cons e)

/-- Each edit comes at the place of the one behind it or later. -/
def Descending (es : List Edit) : Prop := es.Pairwise fun e f => f.span.start ≤ e.span.start

theorem Descending.insert {es : List Edit} (h : Descending es) (e : Edit) : Descending (insert e es) := by
  induction es with
  | nil => exact List.pairwise_singleton _ e
  | cons f es ih =>
      obtain ⟨hf, hes⟩ := List.pairwise_cons.1 h
      rw [Edit.insert]
      split
      next hle =>
        refine List.pairwise_cons.2 ⟨fun g hg => ?_, h⟩
        rcases List.mem_cons.1 hg with rfl | hg
        · exact hle
        · exact Nat.le_trans (hf g hg) hle
      next hlt =>
        refine List.pairwise_cons.2 ⟨fun g hg => ?_, ih hes⟩
        rcases List.mem_cons.1 ((insert_perm e es).mem_iff.1 hg) with rfl | hg
        · exact Nat.le_of_not_le hlt
        · exact hf g hg

theorem descending_sort (es : List Edit) : Descending (sort es) := by
  induction es with
  | nil => exact .nil
  | cons e es ih => exact ih.insert e

/-- Edits with different starts are sorted in one way. -/
theorem sort_eq_of_perm {es fs : List Edit} (h : es.Perm fs)
    (hfs : fs.Pairwise fun e f => e.span.start < f.span.start) : sort es = fs.reverse := by
  have hperm : (sort es).Perm fs.reverse := (sort_perm es).trans (h.trans (List.reverse_perm fs).symm)
  have hreverse : fs.reverse.Pairwise fun e f => f.span.start < e.span.start := List.pairwise_reverse.2 hfs
  refine hperm.eq_of_pairwise (fun e f he hf hle hle' => ?_) (descending_sort es) (hreverse.imp Nat.le_of_lt)
  have hone : fs.reverse.Pairwise fun e f => e.span.start = f.span.start → e = f :=
    hreverse.imp fun hlt heq => absurd heq (Nat.ne_of_gt hlt)
  have : Std.Symm fun e f : Edit => e.span.start = f.span.start → e = f :=
    ⟨fun _ _ h heq => (h heq.symm).symm⟩
  exact hone.forall_of_forall (fun _ _ _ => rfl) (hperm.mem_iff.1 he) hf (Nat.le_antisymm hle' hle)

/-! ## Places -/

theorem apply_at (front part back t : Text) :
    apply (front ++ (part ++ back)) ⟨⟨Text.size front, Text.size front + Text.size part⟩, t⟩ =
      front ++ (t ++ back) := by
  rw [apply, Text.takeBytes_append, ← Text.size_append, ← List.append_assoc front part,
    Text.dropBytes_append]

end Edit

/-- A part of a text, and what comes in its place if anything does. -/
structure Patch where
  source : Text
  replacement : Option Text

namespace Patch

def text (p : Patch) : Text := p.replacement.getD p.source

def edit? (p : Patch) (offset : Nat) : Option Edit :=
  p.replacement.map (⟨⟨offset, offset + Text.size p.source⟩, ·⟩)

def editsFrom (offset : Nat) : List Patch → List Edit
  | [] => []
  | p :: ps => (p.edit? offset).toList ++ editsFrom (offset + Text.size p.source) ps

theorem editsFrom_append (ps qs : List Patch) : ∀ offset : Nat, editsFrom offset (ps ++ qs) =
    editsFrom offset ps ++ editsFrom (offset + Text.size (ps.flatMap source)) qs := by
  induction ps with
  | nil => intro offset; rfl
  | cons p ps ih =>
      intro offset
      rw [List.cons_append, editsFrom, editsFrom, ih, List.append_assoc, List.flatMap_cons,
        Text.size_append, Nat.add_assoc]

theorem editsFrom_eq_nil_iff {ps : List Patch} : ∀ {offset : Nat},
    editsFrom offset ps = [] ↔ ∀ p ∈ ps, p.replacement = none := by
  induction ps with
  | nil => intro offset; simp [editsFrom]
  | cons p ps ih =>
      intro offset
      rw [editsFrom, List.append_eq_nil_iff, ih, List.forall_mem_cons, edit?]
      cases p.replacement <;> simp

def Proper (ps : List Patch) : Prop := ∀ p ∈ ps, p.replacement ≠ none → p.source ≠ []

theorem le_start_of_mem_editsFrom {e : Edit} {ps : List Patch} : ∀ {offset : Nat},
    e ∈ editsFrom offset ps → offset ≤ e.span.start := by
  induction ps with
  | nil => intro offset h; cases h
  | cons p ps ih =>
      intro offset h
      rcases List.mem_append.1 h with he | he
      · obtain ⟨t, -, rfl⟩ := Option.map_eq_some_iff.1 (Option.mem_toList.1 he)
        exact Nat.le_refl _
      · exact Nat.le_trans (Nat.le_add_right _ _) (ih he)

/-- Each edit of the row starts behind the start of the one before it. -/
theorem pairwise_editsFrom {ps : List Patch} (h : Proper ps) : ∀ offset : Nat,
    (editsFrom offset ps).Pairwise fun e f => e.span.start < f.span.start := by
  induction ps with
  | nil => intro offset; exact .nil
  | cons p ps ih =>
      intro offset
      obtain ⟨hp, hps⟩ := List.forall_mem_cons.1 h
      have hlater := ih hps (offset + Text.size p.source)
      rw [editsFrom, edit?]
      cases hreplacement : p.replacement with
      | none => exact hlater
      | some t =>
          refine List.pairwise_cons.2 ⟨fun e he => ?_, hlater⟩
          have hstart := le_start_of_mem_editsFrom he
          have hsize : Text.size p.source ≠ 0 := fun hzero =>
            hp (by simp [hreplacement]) (Text.eq_nil_of_size hzero)
          show offset < e.span.start
          omega

/-- The edits of a row, made from the last one to the first, behind a text that stays. By induction on the
row: the edit of its first patch finds its place behind the same text. -/
theorem foldr_editsFrom (ps : List Patch) : ∀ front : Text,
    (editsFrom (Text.size front) ps).foldr (fun e t => e.apply t) (front ++ ps.flatMap source) =
      front ++ ps.flatMap text := by
  induction ps with
  | nil => intro front; rfl
  | cons p ps ih =>
      intro front
      have hlater := ih (front ++ p.source)
      rw [Text.size_append, List.append_assoc, List.append_assoc] at hlater
      rw [editsFrom, List.foldr_append, List.flatMap_cons, hlater, List.flatMap_cons, edit?, text]
      cases p.replacement with
      | none => rfl
      | some t => exact Edit.apply_at front p.source _ t

/-- In whatever order the edits of a row were collected, they give the text of the patches. -/
theorem applyAll_of_perm {ps : List Patch} {es : List Edit} (hproper : Proper ps)
    (h : es.Perm (editsFrom 0 ps)) : Edit.applyAll (ps.flatMap source) es = ps.flatMap text := by
  rw [Edit.applyAll, Edit.sort_eq_of_perm h (pairwise_editsFrom hproper 0), List.foldl_reverse]
  exact foldr_editsFrom ps []

end Patch

/-- The text `u` is `t` with the patches, which are collected as the edits in some order and may be in any. -/
structure Patched (ps : List Patch) (es : List Edit) (t u : Text) : Prop where
  source : ps.flatMap Patch.source = t
  text : ps.flatMap Patch.text = u
  collected : es.Perm (Patch.editsFrom 0 ps)
  order : ∀ fs : List Edit, fs.Perm es → Edit.applyAll t fs = u

theorem Patch.Proper.patched {ps : List Patch} {es : List Edit} (h : Proper ps)
    (hes : es.Perm (editsFrom 0 ps)) : Patched ps es (ps.flatMap source) (ps.flatMap text) :=
  ⟨rfl, rfl, hes, fun _ hfs => applyAll_of_perm h (hfs.trans hes)⟩

end Stencil
