import Stencil.Proofs.Tag.Context

/-! # Images of content

`Becomes early u t is` says that the content `u` turns into the text `t` by putting texts without
braces, and slots and definitions that are read by themselves, in the place of its slots and
definitions; `is` are the slots and definitions of `t`, and `early` tells whether blanks at most stand
before the first text that was put in. Since a brace that stays text is never followed so, the image
is read as what it was made of (`Becomes.exists_reads`). -/
set_option autoImplicit false
namespace Stencil

inductive Becomes : Bool → Text → Text → List Inside → Prop
  | nil : Becomes false [] [] []
  | text {early : Bool} {ch : Char} {u t : Text} {is : List Inside} :
      lead (ch :: u) = .text → (ch = '{' → early = false) → Becomes early u t is →
      Becomes (isLineBlank ch && early) (ch :: u) (ch :: t) is
  | value {early : Bool} {z x u t : Text} {is : List Inside} :
      z.getLast? ≠ some '{' → '{' ∉ x → Becomes early u t is → Becomes true (z ++ u) (x ++ t) is
  | slot {early : Bool} {z z' u t : Text} {s s' : Slot} {is : List Inside} :
      SlotText z s → SlotText z' s' → Becomes early u t is →
      Becomes false (z ++ u) (z' ++ t) (.slot s' :: is)
  | define {early : Bool} {opening closing br u t : Text} {body body' : Option Text}
      {d' : Definition} {is : List Inside} :
      DefinitionText opening body' closing d' → IsBreak br → Becomes early u t is →
      Becomes false (opening ++ (body.getD [] ++ (closing ++ (br ++ u))))
        (opening ++ (body'.getD [] ++ (closing ++ (br ++ t)))) (.define d' body' :: is)

/-! ## The front of an image -/

/-- The texts begin alike, as far as a brace before them looks. -/
def BeginAlike (u t : Text) : Prop :=
  u.head? = t.head? ∧ (t.head? = some '{' → u.take 2 = t.take 2) ∧
    (u.dropWhile isLineBlank).head? = (t.dropWhile isLineBlank).head?

theorem beginAlike_brace (c : Char) (u t : Text) : BeginAlike ('{' :: c :: u) ('{' :: c :: t) :=
  ⟨rfl, fun _ => rfl, rfl⟩

theorem Becomes.beginAlike {early : Bool} {u t : Text} {is : List Inside}
    (h : Becomes early u t is) : early = false → BeginAlike u t := by
  induction h with
  | nil => intro _; exact ⟨rfl, fun _ => rfl, rfl⟩
  | @text early ch u t is hlead hbrace _ ih =>
      intro hearly
      refine ⟨rfl, fun hhead => ?_, ?_⟩
      · obtain rfl : ch = '{' := by simpa using hhead
        have hfront := (ih (hbrace rfl)).1
        cases u with
        | nil => cases t with
          | nil => rfl
          | cons c t => cases hfront
        | cons c u => cases t with
          | nil => cases hfront
          | cons d t =>
              obtain rfl : c = d := by simpa using hfront
              rfl
      · by_cases hblank : isLineBlank ch = true
        · rw [hblank, Bool.true_and] at hearly
          rw [List.dropWhile_cons_of_pos hblank, List.dropWhile_cons_of_pos hblank]
          exact (ih hearly).2.2
        · rw [List.dropWhile_cons_of_neg hblank, List.dropWhile_cons_of_neg hblank]
          rfl
  | value => intro hearly; cases hearly
  | @slot early z z' u t s s' is hz hz' _ _ =>
      intro _
      obtain ⟨y, rfl⟩ := hz.exists_cons
      obtain ⟨y', rfl⟩ := hz'.exists_cons
      exact beginAlike_brace '{' (y ++ u) (y' ++ t)
  | @define early opening closing br u t body body' d' is hd _ _ _ =>
      intro _
      obtain ⟨c, y, rfl⟩ := hd.exists_cons
      exact beginAlike_brace c _ _

/-! ## The end of an image -/

theorem Becomes.eq_nil {early : Bool} {u t : Text} {is : List Inside} (h : Becomes early u t is)
    (hearly : early = false) (ht : t = []) : u = [] := by
  have hhead := (h.beginAlike hearly).1
  rw [ht] at hhead
  exact List.head?_eq_none_iff.1 hhead

theorem getLast?_append_of_eq {s t : Text} {c : Char} (h : t.getLast? = some c) :
    (s ++ t).getLast? = some c := by
  rw [List.getLast?_append, h]
  rfl

/-- The last character of a text that ends with one of two parts. -/
theorem getLast?_of_append {s t : Text} {c : Char} (hs : s.getLast? ≠ some c)
    (h : (s ++ t).getLast? = some c) : t.getLast? = some c := by
  rw [List.getLast?_append] at h
  cases ht : t.getLast? with
  | none =>
      rw [ht] at h
      exact absurd h hs
  | some d =>
      rw [ht] at h
      exact h

theorem getLast?_ne_of_not_mem {t : Text} {c : Char} (h : c ∉ t) : t.getLast? ≠ some c :=
  fun heq => h (List.mem_of_getLast? heq)

theorem Becomes.getLast? {early : Bool} {u t : Text} {is : List Inside} (h : Becomes early u t is) :
    t.getLast? = some '{' → u.getLast? = some '{' := by
  induction h with
  | nil => exact id
  | @text early ch u t is hlead hbrace hrest ih =>
      intro hlast
      by_cases ht : t = []
      · subst ht
        obtain rfl : ch = '{' := by simpa using hlast
        rw [hrest.eq_nil (hbrace rfl) rfl]
        rfl
      · obtain ⟨c, v, rfl⟩ := List.exists_cons_of_ne_nil ht
        rw [List.getLast?_cons_cons] at hlast
        exact getLast?_append_of_eq (s := [ch]) (ih hlast)
  | @value early z x u t is hz hx _ ih =>
      intro hlast
      exact getLast?_append_of_eq (ih (getLast?_of_append (getLast?_ne_of_not_mem hx) hlast))
  | @slot early z z' u t s s' is hz hz' _ ih =>
      intro hlast
      exact getLast?_append_of_eq (ih (getLast?_of_append hz'.getLast?_ne hlast))
  | @define early opening closing br u t body body' d' is hd hbr _ ih =>
      intro hlast
      simp only [← List.append_assoc] at hlast ⊢
      have hfront : (opening ++ body'.getD [] ++ closing ++ br).getLast? ≠ some '{' := by
        refine getLast?_append_ne (getLast?_ne_of_not_mem hbr.not_mem) fun _ => ?_
        have hall := hd.getLast?_ne
        rwa [← List.append_assoc] at hall
      exact getLast?_append_of_eq (ih (getLast?_of_append hfront hlast))

/-! ## Reading an image -/

theorem Becomes.exists_reads {early : Bool} {u t : Text} {is : List Inside}
    (h : Becomes early u t is) : ∃ ns, Reads [] t ns ∧ insides ns = is := by
  induction h with
  | nil => exact ⟨[], .nil, rfl⟩
  | @text early ch u t is hlead hbrace hrest ih =>
      obtain ⟨ns, hns, heq⟩ := ih
      refine ⟨Node.consText ch ns, .text ?_ hns, by rw [insides_consText, heq]⟩
      rw [List.append_nil]
      by_cases hch : ch = '{'
      · subst hch
        obtain ⟨hhead, htwo, hnext⟩ := hrest.beginAlike (hbrace rfl)
        rw [← lead_brace_congr hhead htwo hnext]
        exact hlead
      · exact lead_of_ne hch t
  | @value early z x u t is hz hx _ ih =>
      obtain ⟨ns, hns, heq⟩ := ih
      obtain ⟨ms, hms, hsame⟩ := exists_reads_append hns hx
      exact ⟨ms, hms, hsame.trans heq⟩
  | @slot early z z' u t s s' is hz hz' _ ih =>
      obtain ⟨ns, hns, heq⟩ := ih
      exact ⟨.slot s' z' :: ns, .slot hz' hns, by rw [insides, heq]⟩
  | @define early opening closing br u t body body' d' is hd hbr _ ih =>
      obtain ⟨ns, hns, heq⟩ := ih
      obtain ⟨ms, hms, hsame⟩ := exists_reads_define hd hbr hns
      exact ⟨ms, hms, by rw [hsame, heq]⟩

end Stencil
