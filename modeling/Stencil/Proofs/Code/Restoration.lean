import Stencil.Code.Vault
import Stencil.Proofs.Text.Digits

/-! # What a text stands for

`Restores v n t r` says that `t` stands for `r`: it consists of ordinary characters and of placeholders of
segments below `n`, which stand for something themselves. Restoring gives what the text stands for
(`restore_of_restores`). A text that stands for something may be cut wherever no placeholder is cut
(`Restores.cut`, `Stands.cut`), and it stands for the same when the vault grows (`Stands.grow`). -/
set_option autoImplicit false
namespace Stencil.Vault

inductive Restores (v : Vault) : Nat → Text → Text → Prop
  | nil {n : Nat} : Restores v n [] []
  | char {n : Nat} {c : Char} {t r : Text} : c ≠ placeholderOpen → Restores v n t r →
      Restores v n (c :: t) (c :: r)
  | mark {n i : Nat} {s q t r : Text} : i < n → v.segments[i]? = some s → Restores v i s q →
      Restores v n t r → Restores v n (placeholder i ++ t) (q ++ r)

theorem mem_placeholder {i : Nat} {c : Char} (hc : c ∈ placeholder i) :
    c = placeholderOpen ∨ c.isDigit = true ∨ c = placeholderClose := by
  simp only [placeholder, List.cons_append, List.mem_cons, List.mem_append, List.not_mem_nil,
    or_false] at hc
  exact hc.imp_right (Or.imp_left fun hdigit => Text.isDigit_of_mem_ofNat hdigit)

theorem brace_not_mem_placeholder (i : Nat) : '{' ∉ placeholder i := by
  intro h
  rcases mem_placeholder h with h | h | h <;> exact absurd h (by decide)

namespace Restores

variable {v w : Vault} {m n : Nat} {s t p q r : Text}

theorem append (hs : Restores v n s p) (ht : Restores v n t q) : Restores v n (s ++ t) (p ++ q) := by
  induction hs with
  | nil => exact ht
  | char hc _ ih => exact .char hc (ih ht)
  | mark hi hseg hq _ _ ih =>
      rw [List.append_assoc, List.append_assoc]
      exact .mark hi hseg hq (ih ht)

theorem mono (h : Restores v n t r) : n ≤ m → Restores v m t r := by
  induction h with
  | nil => intro _; exact .nil
  | char hc _ ih => intro hle; exact .char hc (ih hle)
  | mark hi hseg hq _ _ ih => intro hle; exact .mark (by omega) hseg hq (ih hle)

/-- More segments change nothing. -/
theorem extend (h : Restores v n t r)
    (hw : ∀ (i : Nat) (u : Text), v.segments[i]? = some u → w.segments[i]? = some u) : Restores w n t r := by
  induction h with
  | nil => exact .nil
  | char hc _ ih => exact .char hc ih
  | mark hi hseg _ _ ihq ih => exact .mark hi (hw _ _ hseg) ihq ih

theorem of_not_mem : ∀ {t : Text}, placeholderOpen ∉ t → Restores v n t t := by
  intro t
  induction t with
  | nil => intro _; exact .nil
  | cons c t ih =>
      intro h
      rw [List.mem_cons, not_or] at h
      exact .char (Ne.symm h.1) (ih h.2)

/-- An ordinary character comes off. -/
theorem exists_of_cons {c : Char} (hc : c ≠ placeholderOpen) (h : Restores v n (c :: t) r) :
    ∃ q, r = c :: q ∧ Restores v n t q := by
  generalize hu : c :: t = u at h
  cases h with
  | nil => cases hu
  | char _ hrest =>
      obtain ⟨rfl, rfl⟩ := List.cons.inj hu
      exact ⟨_, rfl, hrest⟩
  | mark _ _ _ _ => exact absurd (List.cons.inj hu).1 hc

/-- A placeholder comes off as a whole. -/
theorem exists_of_open (h : Restores v n (placeholderOpen :: t) r) : ∃ i u p q,
    placeholderOpen :: t = placeholder i ++ u ∧ u.length ≤ t.length ∧ r = p ++ q ∧
      Restores v n (placeholder i) p ∧ Restores v n u q := by
  generalize hw : placeholderOpen :: t = w at h
  cases h with
  | nil => cases hw
  | char hc _ => exact absurd (List.cons.inj hw).1 (Ne.symm hc)
  | @mark _ i s x u r hi hseg hx hu =>
      have hmark := Restores.mark hi hseg hx (Restores.nil (v := v))
      rw [List.append_nil, List.append_nil] at hmark
      obtain rfl := (List.cons.inj hw).2
      exact ⟨i, u, x, r, rfl, by simp; omega, rfl, hmark, hu⟩

/-- Where every segment has a backtick, what a text with a placeholder stands for has one. -/
theorem tick_mem (h : Restores v n t r) (hv : ∀ s ∈ v.segments, '`' ∈ s) :
    '`' ∈ t ∨ placeholderOpen ∈ t → '`' ∈ r := by
  induction h with
  | nil => intro ht; exact ht.elim id (by simp)
  | @char n c t r hc _ ih =>
      intro ht
      rw [List.mem_cons, List.mem_cons] at ht
      rcases ht with (rfl | ht) | (ht | ht)
      · exact List.mem_cons_self ..
      · exact List.mem_cons_of_mem _ (ih (.inl ht))
      · exact absurd ht.symm hc
      · exact List.mem_cons_of_mem _ (ih (.inr ht))
  | mark _ hseg _ _ ihq _ =>
      intro _
      exact List.mem_append_left _ (ihq (.inl (hv _ (List.mem_of_getElem? hseg))))

theorem eq_of_zero (h : Restores v n t r) : n = 0 → t = r := by
  induction h with
  | nil => intro _; rfl
  | char _ _ ih => intro hn; rw [ih hn]
  | mark hi => intro hn; omega

end Restores

/-! ## Restoring -/

theorem takeWhile_isDigit_ofNat (n : Nat) (t : Text) :
    (Text.ofNat n ++ placeholderClose :: t).takeWhile Char.isDigit = Text.ofNat n := by
  rw [List.takeWhile_append_of_pos fun c hc => Text.isDigit_of_mem_ofNat hc,
    List.takeWhile_cons_of_neg (by decide), List.append_nil]

theorem placeholderTail?_ofNat (n : Nat) (t : Text) :
    placeholderTail? (Text.ofNat n ++ placeholderClose :: t) = some (Text.ofNat n, t) := by
  have hdrop : (Text.ofNat n ++ placeholderClose :: t).dropWhile Char.isDigit =
      placeholderClose :: t := by
    rw [List.dropWhile_append_of_pos fun c hc => Text.isDigit_of_mem_ofNat hc,
      List.dropWhile_cons_of_neg (by decide)]
  unfold placeholderTail?
  rw [takeWhile_isDigit_ofNat, hdrop]
  simp [Text.ofNat_ne_nil]

theorem restoreOnce_placeholder {v : Vault} {i : Nat} {s : Text} (h : v.segments[i]? = some s)
    (t : Text) : v.restoreOnce (placeholder i ++ t) = s ++ v.restoreOnce t := by
  have htail := placeholderTail?_ofNat i t
  have htext : placeholder i ++ t = placeholderOpen :: (Text.ofNat i ++ placeholderClose :: t) := by
    simp [placeholder]
  rw [htext, restoreOnce, if_pos rfl]
  split
  next digits after heq =>
    rw [htail] at heq
    obtain ⟨rfl, rfl⟩ := Prod.mk.inj (Option.some.inj heq)
    rw [segment, Text.digitsValue_ofNat, h]
    rfl
  next heq =>
    rw [htail] at heq
    cases heq

theorem Restores.restoreOnce {v : Vault} {n : Nat} {t r : Text} (h : Restores v n t r) :
    Restores v (n - 1) (v.restoreOnce t) r := by
  induction h with
  | nil =>
      rw [Vault.restoreOnce]
      exact .nil
  | char hc _ ih =>
      rw [Vault.restoreOnce, if_neg hc]
      exact .char hc ih
  | mark hi hseg hq _ _ ih =>
      rw [restoreOnce_placeholder hseg]
      exact (hq.mono (by omega)).append ih

theorem Restores.iterate {v : Vault} {n : Nat} {t r : Text} (h : Restores v n t r) (k : Nat) :
    Restores v (n - k) (Nat.repeat v.restoreOnce k t) r := by
  induction k with
  | zero => exact h
  | succ k ih =>
      have hnext := ih.restoreOnce
      rwa [Nat.sub_sub] at hnext

theorem restore_of_restores {v : Vault} {n : Nat} {t r : Text} (h : Restores v n t r)
    (hn : n ≤ v.segments.length) : v.restore t = r :=
  (h.iterate (v.segments.length + 1)).eq_of_zero (by omega)

theorem restore_of_not_mem (v : Vault) {t : Text} (h : placeholderOpen ∉ t) : v.restore t = t :=
  restore_of_restores (Restores.of_not_mem (n := 0) h) (Nat.zero_le _)

/-! ## Cutting -/

/-- No placeholder goes over the place between the texts. -/
def Cuts (s t : Text) : Prop :=
  (∀ c ∈ s.getLast?, c ≠ placeholderOpen ∧ c.isDigit = false) ∨
    ∀ c ∈ t.head?, c.isDigit = false ∧ c ≠ placeholderClose

theorem Cuts.tail {c : Char} {s t : Text} (h : Cuts (c :: s) t) : Cuts s t := by
  refine h.imp_left fun hlast d hd => hlast d ?_
  cases s with
  | nil => exact absurd hd (by simp)
  | cons e s => rwa [List.getLast?_cons_cons]

theorem Cuts.of_append {a s t : Text} (h : Cuts (a ++ s) t) : Cuts s t := by
  induction a with
  | nil => exact h
  | cons c a ih => exact ih h.tail

/-- The parts of a placeholder that is cut. -/
theorem not_cuts_of_placeholder {i : Nat} {s b t : Text} (h : placeholder i = s ++ b) (hs : s ≠ [])
    (hb : b ≠ []) : ¬Cuts s (b ++ t) := by
  obtain ⟨c, s, rfl⟩ := List.exists_cons_of_ne_nil hs
  obtain ⟨d, b, rfl⟩ := List.exists_cons_of_ne_nil hb
  simp only [placeholder, List.cons_append, List.cons.injEq] at h
  obtain ⟨rfl, h⟩ := h
  have hsplit : ∃ u, Text.ofNat i = s ++ u := by
    rcases List.append_eq_append_iff.1 h with ⟨u, hu, -⟩ | ⟨u, hu, -⟩
    · have hlength := congrArg List.length h
      simp only [hu, List.length_append, List.length_cons, List.length_nil] at hlength
      obtain rfl : u = [] := List.length_eq_zero_iff.1 (by omega)
      exact ⟨[], by simpa using hu.symm⟩
    · exact ⟨u, hu⟩
  obtain ⟨u, hu⟩ := hsplit
  have hdigits : ∀ e ∈ s, e.isDigit = true := fun e he =>
    Text.isDigit_of_mem_ofNat (by rw [hu]; exact List.mem_append_left _ he)
  rintro (hlast | hhead)
  · cases hl : (placeholderOpen :: s).getLast? with
    | none => exact absurd hl (by simp)
    | some e =>
        obtain ⟨hopen, hdigit⟩ := hlast e hl
        rcases List.mem_cons.1 (List.mem_of_getLast? hl) with rfl | he
        · exact hopen rfl
        · rw [hdigits e he] at hdigit
          cases hdigit
  · obtain ⟨hdigit, hclose⟩ := hhead d rfl
    have hd : d ∈ Text.ofNat i ++ [placeholderClose] := by rw [h]; simp
    rcases List.mem_append.1 hd with hd | hd
    · rw [Text.isDigit_of_mem_ofNat hd] at hdigit
      cases hdigit
    · exact hclose (by simpa using hd)

theorem Restores.cut {v : Vault} {n : Nat} {t r : Text} : ∀ {s : Text}, Restores v n (s ++ t) r →
    Cuts s t → ∃ p q, r = p ++ q ∧ Restores v n s p ∧ Restores v n t q := by
  intro s h
  generalize hu : s ++ t = u at h
  induction h generalizing s with
  | nil =>
      intro _
      obtain ⟨rfl, rfl⟩ := List.append_eq_nil_iff.1 hu
      exact ⟨[], [], rfl, .nil, .nil⟩
  | @char n c u r hc hur ih =>
      intro hcut
      cases s with
      | nil =>
          obtain rfl : t = c :: u := hu
          exact ⟨[], c :: r, rfl, .nil, .char hc hur⟩
      | cons d s =>
          obtain ⟨rfl, hrest⟩ := List.cons.inj hu
          obtain ⟨p, q, rfl, hp, hq⟩ := ih hrest hcut.tail
          exact ⟨d :: p, q, rfl, .char hc hp, hq⟩
  | @mark n i g x u r hi hseg hx hur _ ih =>
      intro hcut
      rcases List.append_eq_append_iff.1 hu with ⟨b, hb, hrest⟩ | ⟨a, rfl, rfl⟩
      · by_cases hs : s = []
        · subst hs
          obtain rfl : t = placeholder i ++ u := hu
          exact ⟨[], x ++ r, rfl, .nil, .mark hi hseg hx hur⟩
        · by_cases hnil : b = []
          · subst hnil
            rw [List.append_nil] at hb
            obtain rfl : t = u := hrest
            subst hb
            have hs' := Restores.mark hi hseg hx (Restores.nil (v := v))
            simp only [List.append_nil] at hs'
            exact ⟨x, r, rfl, hs', hur⟩
          · rw [hrest] at hcut
            -- the place is inside the placeholder
            exact absurd hcut (not_cuts_of_placeholder hb hs hnil)
      · obtain ⟨p, q, rfl, hp, hq⟩ := ih rfl hcut.of_append
        exact ⟨x ++ p, q, by rw [List.append_assoc], .mark hi hseg hx hp, hq⟩

/-! ## Standing -/

theorem getElem?_of_grow {v w : Vault} (h : v.segments <+: w.segments) (i : Nat) (u : Text)
    (hu : v.segments[i]? = some u) : w.segments[i]? = some u := by
  obtain ⟨more, hmore⟩ := h
  obtain ⟨hi, -⟩ := List.getElem?_eq_some_iff.1 hu
  rw [← hmore, List.getElem?_append_left hi, hu]

/-- No character of placeholders is in the text. -/
def Ordinary (t : Text) : Prop := ∀ c ∈ t, c ≠ placeholderOpen ∧ c ≠ placeholderClose

instance (t : Text) : Decidable (Ordinary t) := List.decidableBAll _ t

theorem Ordinary.append {s t : Text} (hs : Ordinary s) (ht : Ordinary t) : Ordinary (s ++ t) :=
  fun c hc => (List.mem_append.1 hc).elim (hs c) (ht c)

/-- The text stands for something: strictly, for something without the last character of placeholders. -/
def Stands (strict : Prop) (v : Vault) (t : Text) : Prop :=
  ∃ r, Restores v v.segments.length t r ∧ (strict → placeholderClose ∉ r)

namespace Stands

variable {strict : Prop} {v w : Vault} {s t : Text}

theorem of_not_mem (v : Vault) (h : placeholderOpen ∉ t) (hclose : strict → placeholderClose ∉ t) :
    v.Stands strict t := ⟨t, .of_not_mem h, hclose⟩

theorem of_ordinary (v : Vault) (h : Ordinary t) : v.Stands strict t :=
  .of_not_mem v (fun hmem => (h _ hmem).1 rfl) fun _ hmem => (h _ hmem).2 rfl

theorem nil (v : Vault) : v.Stands strict [] := .of_ordinary v (by decide)

theorem append (hs : v.Stands strict s) (ht : v.Stands strict t) : v.Stands strict (s ++ t) := by
  obtain ⟨p, hp, hpclose⟩ := hs
  obtain ⟨q, hq, hqclose⟩ := ht
  refine ⟨p ++ q, hp.append hq, fun hstrict => ?_⟩
  rw [List.mem_append, not_or]
  exact ⟨hpclose hstrict, hqclose hstrict⟩

theorem flatMap {α : Type} {f : α → Text} : ∀ {as : List α}, (∀ a ∈ as, v.Stands strict (f a)) →
    v.Stands strict (as.flatMap f) := by
  intro as
  induction as with
  | nil => intro _; exact .nil v
  | cons a as ih =>
      intro h
      obtain ⟨ha, has⟩ := List.forall_mem_cons.1 h
      exact ha.append (ih has)

theorem cut (h : v.Stands strict (s ++ t)) (hcut : Cuts s t) : v.Stands strict s ∧ v.Stands strict t := by
  obtain ⟨r, hr, hclose⟩ := h
  obtain ⟨p, q, rfl, hp, hq⟩ := hr.cut hcut
  simp only [List.mem_append, not_or] at hclose
  exact ⟨⟨p, hp, fun hstrict => (hclose hstrict).1⟩, ⟨q, hq, fun hstrict => (hclose hstrict).2⟩⟩

/-- An ordinary character comes off, and can be put back before another text. -/
theorem tail {c : Char} (hc : c ≠ placeholderOpen) (h : v.Stands strict (c :: t)) :
    v.Stands strict t ∧ ∀ {s : Text}, v.Stands strict s → v.Stands strict (c :: s) := by
  obtain ⟨r, hr, hclose⟩ := h
  obtain ⟨q, rfl, hq⟩ := hr.exists_of_cons hc
  simp only [List.mem_cons, not_or] at hclose
  refine ⟨⟨q, hq, fun hstrict => (hclose hstrict).2⟩, ?_⟩
  rintro s ⟨p, hp, hpclose⟩
  exact ⟨c :: p, .char hc hp, fun hstrict => by simpa using ⟨(hclose hstrict).1, hpclose hstrict⟩⟩

/-- A placeholder comes off as a whole. -/
theorem exists_of_open (h : v.Stands strict (placeholderOpen :: t)) : ∃ i u,
    placeholderOpen :: t = placeholder i ++ u ∧ u.length ≤ t.length ∧
      v.Stands strict (placeholder i) ∧ v.Stands strict u := by
  obtain ⟨r, hr, hclose⟩ := h
  obtain ⟨i, u, p, q, hu, hshort, rfl, hp, hq⟩ := hr.exists_of_open
  simp only [List.mem_append, not_or] at hclose
  exact ⟨i, u, hu, hshort, ⟨p, hp, fun hstrict => (hclose hstrict).1⟩,
    ⟨q, hq, fun hstrict => (hclose hstrict).2⟩⟩

theorem grow (h : v.Stands strict t) (hw : v.segments <+: w.segments) : w.Stands strict t := by
  obtain ⟨r, hr, hclose⟩ := h
  exact ⟨r, (hr.extend (getElem?_of_grow hw)).mono hw.length_le, hclose⟩

end Stands

end Stencil.Vault
