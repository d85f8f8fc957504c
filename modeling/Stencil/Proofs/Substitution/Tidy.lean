import Stencil.Proofs.Substitution.Content
import Stencil.Proofs.Substitution.Images
import Stencil.Proofs.Tag.Stretch
import Stencil.Proofs.Tag.Written

/-! # Content that keeps its reading

Three things can change how content is read when values come into it: a brace that is text directly
before a value, a number that has no numeral, and a block that is taken without being understood, whose
reading may depend on what comes behind it. `Tidy` content has none of them. -/
set_option autoImplicit false
namespace Stencil

open Reader (Writable)

def startsReplaced (names : List Text) : List Node → Bool
  | [] => false
  | .text t :: ns => t.all isLineBlank && startsReplaced names ns
  | .slot s _ :: _ => s.isReplaced names
  | .define .. :: _ => false

def endsOpen : Text → Bool
  | [] => false
  | c :: t => (c = '{' && t.all isLineBlank) || endsOpen t

/-- Whether an opening brace of the text stands before a slot that is replaced, blanks aside. -/
def braceBefore (names : List Text) : List Node → Bool
  | [] => false
  | .text t :: ns => (endsOpen t && startsReplaced names ns) || braceBefore names ns
  | _ :: ns => braceBefore names ns

inductive Tidy : List Text → Text → Prop
  | intro {names : List Text} {t : Text} {ns : List Node} : parse t = .ok ns →
      braceBefore names ns = false →
      (∀ s a u, .slot s ∈ insides ns → a ∈ s.args → a.value = .text u → showsSlot u = true →
        names ≠ [] → ∀ b ∈ s.args, Writable b.value) →
      (∀ s a u, .slot s ∈ insides ns → a ∈ s.args → a.value = .text u → showsSlot u = true →
        names ≠ [] → Tidy names u) →
      (∀ d source, .define d source ∈ ns → d.raw = true → source.body ≠ none → Settled d source) →
      (∀ d source body, .define d source ∈ ns → d.raw = false → source.body = some body →
        Tidy (d.visible names) body) →
      Tidy names t

/-! ## One character of text at a time -/

@[simp] theorem startsReplaced_consText (names : List Text) (ch : Char) (ns : List Node) :
    startsReplaced names (Node.consText ch ns) = (isLineBlank ch && startsReplaced names ns) := by
  cases ns with
  | nil => simp [Node.consText, startsReplaced]
  | cons n ns => cases n <;> simp [Node.consText, startsReplaced, Bool.and_assoc]

@[simp] theorem braceBefore_consText (names : List Text) (ch : Char) (ns : List Node) :
    braceBefore names (Node.consText ch ns) =
      ((ch = '{' && startsReplaced names ns) || braceBefore names ns) := by
  cases ns with
  | nil => simp [Node.consText, braceBefore, startsReplaced]
  | cons n ns =>
      cases n with
      | text t =>
          simp only [Node.consText, braceBefore, startsReplaced, endsOpen]
          cases decide (ch = '{') <;> cases t.all isLineBlank <;> cases endsOpen t <;>
            cases startsReplaced names ns <;> rfl
      | slot s z => simp [Node.consText, braceBefore, endsOpen]
      | define d source => simp [Node.consText, braceBefore, endsOpen, startsReplaced]

/-! ## Tidy content is read by itself -/

theorem reads_of_located {c : Cursor} {ns : List Node} (h : Located c ns)
    (hsettled : ∀ d source, .define d source ∈ ns → d.raw = true → source.body ≠ none →
      Settled d source)
    (hbody : ∀ d source body, .define d source ∈ ns → d.raw = false → source.body = some body →
      ∃ ms, Reads [] body ms) : Reads [] c.rest ns := by
  obtain ⟨last, hlast, hstretch⟩ := h.stretch
  obtain ⟨t, ht, hreads⟩ := reads_of_stretch hstretch fun d source hd hne => by
    by_cases hraw : d.raw = true
    · exact hsettled d source hd hraw hne
    · have hnot : d.raw = false := by simpa using hraw
      obtain ⟨body, hcontent⟩ := Option.ne_none_iff_exists'.1 hne
      obtain ⟨ms, hms⟩ := hbody d source body hd hnot hcontent
      obtain ⟨c₁, next, hlead, hdef⟩ := h.exists_define hd
      exact settled_of_reads hlead hdef hcontent hnot hms
  rw [hlast, List.append_nil] at ht
  rw [hlast] at hreads
  rwa [ht]

theorem Tidy.exists_reads {names : List Text} {t : Text} (h : Tidy names t) :
    ∃ ns, Reads [] t ns := by
  induction h with
  | @intro names t ns hparse _ _ _ hsettled _ _ ih =>
      exact ⟨ns, reads_of_located (located_of_parse hparse) hsettled ih⟩

/-! ## Tidiness by computation -/

/-- Whether the content is tidy, down to a depth; blocks that are raw are not looked at. -/
def isTidy : Nat → List Text → Text → Bool
  | 0, _, _ => false
  | depth + 1, names, t =>
    match parse t with
    | .error _ => false
    | .ok ns =>
      !braceBefore names ns && ns.all fun
        | .text _ => true
        | .slot s _ => s.args.all fun a =>
          match a.value with
          | .number _ => true
          | .text u => !showsSlot u ||
              (isTidy depth names u && s.args.all fun b => b.value.asNumber?.all Decimal.isFinite)
        | .define d source =>
          match source.body with
          | none => true
          | some body => !d.raw && isTidy depth (d.visible names) body

theorem writable_of_isFinite {v : Value} (h : v.asNumber?.all Decimal.isFinite = true) :
    Writable v := by
  cases v with
  | text t => trivial
  | number x => exact h

theorem tidy_of_isTidy : ∀ {depth : Nat} {names : List Text} {t : Text},
    isTidy depth names t = true → Tidy names t := by
  intro depth
  induction depth with
  | zero => intro names t h; cases h
  | succ depth ih =>
      intro names t h
      rw [isTidy] at h
      split at h
      · cases h
      next ns hns =>
        rw [Bool.and_eq_true, List.all_eq_true, Bool.not_eq_true'] at h
        obtain ⟨hbrace, hall⟩ := h
        have hargs : ∀ s a u, .slot s ∈ insides ns → a ∈ s.args → a.value = .text u →
            showsSlot u = true → isTidy depth names u = true ∧
              ∀ b ∈ s.args, b.value.asNumber?.all Decimal.isFinite = true := by
          intro s a u hs ha hu hshows
          rcases exists_of_mem_insides hs with ⟨s', z, heq, hz⟩ | ⟨d, source, heq, -⟩
          · obtain rfl := Inside.slot.inj heq
            have hslot := List.all_eq_true.1 (hall _ hz) a ha
            simp only [hu, hshows, Bool.not_true, Bool.false_or, Bool.and_eq_true,
              List.all_eq_true] at hslot
            exact hslot
          · cases heq
        have hbodies : ∀ d source body, .define d source ∈ ns → source.body = some body →
            d.raw = false ∧ isTidy depth (d.visible names) body = true := by
          intro d source body hd hbody
          have hdefine := hall _ hd
          simpa only [hbody, Bool.and_eq_true, Bool.not_eq_true'] using hdefine
        refine .intro hns hbrace ?_ ?_ ?_ ?_
        · intro s a u hs ha hu hshows _ b hb
          exact writable_of_isFinite ((hargs s a u hs ha hu hshows).2 b hb)
        · intro s a u hs ha hu hshows _
          exact ih (hargs s a u hs ha hu hshows).1
        · intro d source hd hraw hne
          obtain ⟨body, hbody⟩ := Option.ne_none_iff_exists'.1 hne
          rw [(hbodies d source body hd hbody).1] at hraw
          cases hraw
        · intro d source body hd _ hbody
          exact ih (hbodies d source body hd hbody).2

end Stencil
