import Stencil.Proofs.Code.Bounds

/-! # Histories of a vault

A vault comes about by calls that mask texts and protect texts, each of which may hold placeholders that
earlier calls gave (`Admits`). A segment then refers to earlier segments only (`sound_after`), so that as
many rounds as there are segments put back everything, and nothing of a placeholder is left
(`restore_after`). -/
set_option autoImplicit false
namespace Stencil.Vault

open Code (Bounded)

/-- Pieces without a character of placeholders, and whole placeholders of segments below `n`. -/
inductive Marked (n : Nat) : Text → Prop
  | nil : Marked n []
  | plain {s t : Text} : (∀ c ∈ s, c ≠ placeholderOpen ∧ c ≠ placeholderClose) → Marked n t →
      Marked n (s ++ t)
  | mark {i : Nat} {t : Text} : i < n → Marked n t → Marked n (placeholder i ++ t)

theorem Marked.of_all {n : Nat} {s : Text}
    (h : (s.all fun c => c ≠ placeholderOpen && c ≠ placeholderClose) = true) : Marked n s := by
  have hs : ∀ c ∈ s, c ≠ placeholderOpen ∧ c ≠ placeholderClose := by simpa using h
  have hmarked := Marked.plain hs (Marked.nil (n := n))
  rwa [List.append_nil] at hmarked

inductive Call where
  | mask (t : Text)
  | protect (t : Text)
deriving Repr, DecidableEq

def Call.argument : Call → Text
  | .mask t => t
  | .protect t => t

def Call.run (v : Vault) : Call → Text × Vault
  | .mask t => v.mask t
  | .protect t => v.protect t

def after (v : Vault) : List Call → Vault
  | [] => v
  | c :: cs => after (c.run v).2 cs

/-- The argument of every call holds whole placeholders of segments that are there, and nothing else that
belongs to placeholders. -/
def Admits (v : Vault) : List Call → Prop
  | [] => True
  | c :: cs => Marked v.segments.length c.argument ∧ Admits (c.run v).2 cs

/-- A segment refers to earlier segments only. -/
def Sound (v : Vault) : Prop := ∀ k s, v.segments[k]? = some s → Marked k s

/-! ## Marked texts and what they stand for -/

namespace Restores

variable {v : Vault} {n : Nat} {t r : Text}

theorem open_not_mem (h : Restores v n t r) : placeholderOpen ∉ r := by
  induction h with
  | nil => simp
  | char hc _ ih => simp [Ne.symm hc, ih]
  | mark _ _ _ _ ihq ih => simp [ihq, ih]

/-- Where the characters stand for a text without the closing one, this one ends placeholders only. -/
theorem marked (h : Restores v n t r) : placeholderClose ∉ r → Marked n t := by
  induction h with
  | nil => intro _; exact .nil
  | @char n c t r hc _ ih =>
      intro hclose
      rw [List.mem_cons, not_or] at hclose
      refine .plain (s := [c]) (fun d hd => ?_) (ih hclose.2)
      obtain rfl : d = c := by simpa using hd
      exact ⟨hc, Ne.symm hclose.1⟩
  | mark hi _ _ _ _ ih =>
      intro hclose
      rw [List.mem_append, not_or] at hclose
      exact .mark hi (ih hclose.2)

end Restores

/-- What a marked text stands for, by induction on the bound: its placeholders lead to segments with a
smaller one. -/
theorem Marked.exists_restores {v : Vault} (hv : Sound v) : ∀ {n : Nat} {t : Text}, Marked n t →
    n ≤ v.segments.length → ∃ r, Restores v n t r ∧ placeholderClose ∉ r := by
  intro n
  induction n using Nat.strongRecOn with
  | ind n ihn =>
      intro t h hn
      induction h with
      | nil => exact ⟨[], .nil, by simp⟩
      | @plain s t hs _ ih =>
          obtain ⟨r, hr, hclose⟩ := ih
          refine ⟨s ++ r, (Restores.of_not_mem fun h => (hs _ h).1 rfl).append hr, ?_⟩
          rw [List.mem_append, not_or]
          exact ⟨fun h => (hs _ h).2 rfl, hclose⟩
      | @mark i t hi _ ih =>
          obtain ⟨r, hr, hclose⟩ := ih
          obtain ⟨s, hseg⟩ : ∃ s, v.segments[i]? = some s :=
            ⟨v.segments[i], List.getElem?_eq_getElem (by omega)⟩
          obtain ⟨q, hq, hq'⟩ := ihn i hi (hv i s hseg) (by omega)
          exact ⟨q ++ r, .mark hi hseg hq hr, by simp [hq', hclose]⟩

/-! ## What a call leaves -/

theorem sound_protect {v : Vault} {t : Text} (hv : Sound v) (ht : Marked v.segments.length t) :
    Sound (v.protect t).2 := by
  intro k s hk
  rw [show (v.protect t).2.segments = v.segments ++ [t] from rfl, List.getElem?_append] at hk
  by_cases hlt : k < v.segments.length
  · rw [if_pos hlt] at hk
    exact hv k s hk
  · rw [if_neg hlt, List.getElem?_singleton] at hk
    split at hk
    · obtain rfl := Option.some.inj hk
      obtain rfl : k = v.segments.length := by omega
      exact ht
    · cases hk

theorem sound_maskPieces : ∀ {ps : List Code.Piece} {v : Vault} {a r : Text}, Bounded ps → Sound v →
    Restores v v.segments.length (a ++ Code.source ps) r → placeholderClose ∉ r →
    Sound (v.maskPieces ps).2 := by
  intro ps
  induction ps with
  | nil => intro v a r _ hv _ _; exact hv
  | cons piece ps ih =>
      intro v a r hbounded hv h hclose
      cases piece with
      | prose s =>
          rw [Code.source_cons_prose, ← List.append_assoc] at h
          exact ih hbounded hv h hclose
      | code g =>
          obtain ⟨hbegins, hfinishes, hps⟩ := hbounded
          rw [Code.source_cons_code] at h
          obtain ⟨x, hx, hg, hstored⟩ := restores_protect_code hbegins hfinishes h
          rw [← List.append_assoc] at hstored
          have hmarked : Marked v.segments.length g := hg.marked fun hmem => hclose (hx.subset hmem)
          exact ih hps (sound_protect hv hmarked) hstored hclose

theorem sound_mask {v : Vault} {t : Text} (hv : Sound v) (ht : Marked v.segments.length t) :
    Sound (v.mask t).2 := by
  obtain ⟨r, hr, hclose⟩ := ht.exists_restores hv (Nat.le_refl _)
  refine sound_maskPieces (a := []) (Code.bounded_pieces t) hv ?_ hclose
  rw [Code.source_pieces]
  exact hr

/-- A call keeps the vault sound, and its result may go into later calls. -/
theorem sound_call {v : Vault} {c : Call} (hv : Sound v) (hc : Marked v.segments.length c.argument) :
    Sound (c.run v).2 ∧ Marked (c.run v).2.segments.length (c.run v).1 := by
  obtain ⟨r, hr, hclose⟩ := hc.exists_restores hv (Nat.le_refl _)
  cases c with
  | mask t => exact ⟨sound_mask hv hc, (restores_mask hr).marked hclose⟩
  | protect t => exact ⟨sound_protect hv hc, (restores_placeholder hr).marked hclose⟩

theorem sound_empty : Sound empty := by
  intro k s hk
  cases hk

theorem sound_after : ∀ {cs : List Call} {v : Vault}, Sound v → v.Admits cs → Sound (v.after cs) := by
  intro cs
  induction cs with
  | nil => intro v hv _; exact hv
  | cons c cs ih => intro v hv h; exact ih (sound_call hv h.1).1 h.2

/-- In a vault that calls have filled, segments refer to earlier segments only. A text with placeholders of
this vault stands for one without any, and restoring gives that text, also when the text was masked before
and also with more rounds; each call gives such a text. -/
theorem restore_after (cs : List Call) (h : empty.Admits cs) :
    Sound (empty.after cs) ∧
      ∀ t, Marked (empty.after cs).segments.length t →
        ∃ r, Restores (empty.after cs) (empty.after cs).segments.length t r ∧
          placeholderOpen ∉ r ∧ placeholderClose ∉ r ∧
          (empty.after cs).restore t = r ∧
          (∀ rounds, (empty.after cs).segments.length ≤ rounds →
            Nat.repeat (empty.after cs).restoreOnce rounds t = r) ∧
          ∀ c : Call, c.argument = t →
            (c.run (empty.after cs)).2.restore (c.run (empty.after cs)).1 = r ∧
              Marked (c.run (empty.after cs)).2.segments.length (c.run (empty.after cs)).1 := by
  have hv := sound_after sound_empty h
  refine ⟨hv, fun t ht => ?_⟩
  obtain ⟨r, hr, hclose⟩ := ht.exists_restores hv (Nat.le_refl _)
  refine ⟨r, hr, hr.open_not_mem, hclose, restore_of_restores hr (Nat.le_refl _), ?_, ?_⟩
  · intro rounds hrounds
    exact (hr.iterate rounds).eq_of_zero (by omega)
  · rintro c rfl
    refine ⟨?_, (sound_call hv ht).2⟩
    cases c with
    | mask t => exact restore_of_restores (restores_mask hr) (Nat.le_refl _)
    | protect t => exact restore_of_restores (restores_placeholder hr) (Nat.le_refl _)

def nestedCalls : List Call := [.mask "`y`".toList, .protect ('[' :: placeholder 0 ++ [']'])]

/-- The placeholder of the second call stands for the code in its brackets. -/
theorem restore_nestedCalls : empty.Admits nestedCalls ∧
    Marked (empty.after nestedCalls).segments.length (placeholder 1) ∧
    Restores (empty.after nestedCalls) (empty.after nestedCalls).segments.length (placeholder 1)
      "[`y`]".toList := by
  have hone : (Call.run empty (.mask "`y`".toList)).2.segments.length = 1 := by decide +kernel
  have htwo : (empty.after nestedCalls).segments.length = 2 := by decide +kernel
  have hcode : Marked 0 "`y`".toList := .of_all (by decide)
  have hbrackets : Marked 1 ('[' :: placeholder 0 ++ [']']) :=
    .plain (s := ['[']) (by simp [placeholderOpen, placeholderClose])
      (.mark (by decide) (.of_all (by decide)))
  have hadmits : empty.Admits nestedCalls := ⟨hcode, hone ▸ hbrackets, trivial⟩
  have hmark : Marked (empty.after nestedCalls).segments.length (placeholder 1) := by
    have h := Marked.mark (n := (empty.after nestedCalls).segments.length) (i := 1) (by omega) .nil
    rwa [List.append_nil] at h
  obtain ⟨-, hall⟩ := restore_after nestedCalls hadmits
  obtain ⟨r, hr, -, -, hrestore, -⟩ := hall (placeholder 1) hmark
  have htext : (empty.after nestedCalls).restore (placeholder 1) = "[`y`]".toList := by decide +kernel
  rw [← htext, hrestore]
  exact ⟨hadmits, hmark, hr⟩

end Stencil.Vault
