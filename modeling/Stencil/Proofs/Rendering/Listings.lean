import Stencil.Proofs.Code.Exact
import Stencil.Proofs.Code.Seams
import Stencil.Proofs.Files.Blocks
import Stencil.Proofs.Rendering.Attachments
import Stencil.Proofs.Rendering.Expansion

/-! # Listings in a template

A function that gives the listing of files is called in text without braces, code and comments. The pass
behind the call masks the fences again, and they keep the texts of the files from being read as a template, if
they are found: they have to start their lines. So a listing is shown as it is behind a line that is blank up
to the slot, and behind other text the first fence is none and the texts are read (`Engine.render_listing`). -/
set_option autoImplicit false
namespace Stencil

open Code (pieces)
open Text (StartsLine)
open Reader (IsName)

/-! ## Texts without closing braces -/

/-- Two opening braces begin a slot, and without closing braces it has no end. -/
theorem not_located_of_open {b : Text} (hb : b ≠ []) (hhead : b.head? ≠ some '{') (hclose : '}' ∉ b) :
    ∀ {a : Text} {c : Cursor} {ns : List Node}, '{' ∉ a → c.rest = a ++ '{' :: '{' :: b →
      ¬Located c ns := by
  intro a
  induction a with
  | nil =>
      intro c ns _ hc h
      have hlead : lead c.rest = .slot := by
        have hslot := lead_slot hb hhead []
        rw [List.append_nil] at hslot
        rw [hc]
        exact hslot
      cases h with
      | nil hnil => rw [hnil] at hc; cases hc
      | text hcons htext => rw [hlead] at htext; cases htext
      | define hopen => rw [hlead] at hopen; cases hopen
      | slot _ hslot =>
          obtain ⟨y, hy⟩ := Reader.finishes_slot.finishes hslot
          rw [hc] at hy
          have hmem : '}' ∈ '{' :: '{' :: b := by rw [List.nil_append] at hy; rw [hy]; simp [Reader.slotEnd]
          simp [hclose] at hmem
  | cons ch a ih =>
      intro c ns ha hc h
      rw [List.mem_cons, not_or] at ha
      have hlead : lead c.rest = .text := by
        rw [hc]
        exact lead_of_ne (Ne.symm ha.1) _
      cases h with
      | nil hnil => rw [hnil] at hc; cases hc
      | text hcons _ hrest =>
          refine ih ha.2 ?_ hrest
          simp [Cursor.advance, hc]
      | slot hslot => rw [hlead] at hslot; cases hslot
      | define hopen => rw [hlead] at hopen; cases hopen

theorem exists_error_of_open {a b : Text} (ha : '{' ∉ a) (hb : b ≠ []) (hhead : b.head? ≠ some '{')
    (hclose : '}' ∉ b) : ∃ e, parse (a ++ '{' :: '{' :: b) = .error e := by
  cases h : parse (a ++ '{' :: '{' :: b) with
  | error e => exact ⟨e, rfl⟩
  | ok ns => exact absurd (located_of_parse h) (not_located_of_open hb hhead hclose ha rfl)

/-! ## Calls in text -/

def callText (name : Text) : Text := '{' :: '{' :: (name ++ '(' :: ')' :: Reader.slotEnd)

def callSlot (name : Text) : Slot := { name, args := [], raw := false, expr := none }

theorem slotText_callText {name : Text} (hname : IsName name) :
    SlotText (callText name) (callSlot name) := by
  have hempty := Reader.IsReference.empty hname Reader.spaces_nil Reader.spaces_nil Reader.spaces_nil
  have htext := hempty.slotText Reader.spaces_nil Reader.spaces_nil false
  simpa [callText, callSlot, Reader.slotEnd] using htext

namespace Rendering

variable {engine : Engine} {w : Work}

/-- Text in front of nodes is put in front of what becomes of them. -/
theorem run_outcomes_foldr_consText {w' : Work} {ns : List Node} {done : List Outcome}
    (h : (outcomes engine ns).run.run w = (.ok done, w')) (s : Text) :
    ∃ done', (outcomes engine (s.foldr Node.consText ns)).run.run w = (.ok done', w') ∧
      done'.flatMap Outcome.text = s ++ done.flatMap Outcome.text ∧
      done'.flatMap Outcome.attachments = done.flatMap Outcome.attachments ∧
      done'.any Outcome.changed = done.any Outcome.changed := by
  induction s with
  | nil => exact ⟨done, h, rfl, rfl, rfl⟩
  | cons ch s ih =>
      obtain ⟨done', hrun, htext, hattached, hchanged⟩ := ih
      -- either a new text node is put in front, or the one in front gets longer
      have hnew : ∃ done'', (outcomes engine (.text [ch] :: s.foldr Node.consText ns)).run.run w =
          (.ok done'', w') ∧ done''.flatMap Outcome.text = ch :: (s ++ done.flatMap Outcome.text) ∧
          done''.flatMap Outcome.attachments = done.flatMap Outcome.attachments ∧
          done''.any Outcome.changed = done.any Outcome.changed := by
        refine ⟨{ text := [ch] } :: done', ?_, ?_, hattached, hchanged⟩
        · rw [outcomes, run_bind_ok _ hrun]
          rfl
        · rw [List.flatMap_cons, htext]
          rfl
      rw [List.foldr_cons]
      cases hnodes : s.foldr Node.consText ns with
      | nil => rw [hnodes] at hnew; exact hnew
      | cons n ms =>
          rw [hnodes] at hrun hnew
          cases n with
          | slot t z => exact hnew
          | define d source => exact hnew
          | text u =>
              obtain ⟨later, v, hlater, hstep⟩ := exists_of_run_bind hrun
              obtain ⟨heq, rfl⟩ := Prod.mk.inj hstep
              obtain rfl := Except.ok.inj heq
              refine ⟨{ text := ch :: u } :: later, ?_, ?_, hattached, hchanged⟩
              · show (outcomes engine (.text (ch :: u) :: ms)).run.run w = _
                rw [outcomes, run_bind_ok _ hlater]
                rfl
              · exact congrArg (ch :: ·) htext

/-- A slot that calls a function without arguments. -/
theorem run_slot?_call {name r : Text} {f : Function} {after : Context}
    (hfree : w.context.definitions.get? name = none) (hf : engine.functions.get? name = some f)
    (hrun : f.run [] { w.context with attachments := [] } = (.ok r, after)) :
    (slot? engine (callSlot name)).run.run w =
      (.ok (some (r, after.attachments)),
        { w with context := { after with attachments := w.context.attachments } }) := by
  have hwarn : (warn (f.argumentWarnings [])).run.run w = (.ok (), w) := by
    have hnone : f.argumentWarnings [] = [] := rfl
    rw [run_warn, hnone, Context.warn, List.append_nil]
  have hcall : (call f (f.arrange [])).run.run w = (.ok (r, after.attachments),
      { w with context := { after with attachments := w.context.attachments } }) := by
    have harrange : (f.arrange []).map (Value.restored w.vault) = [] := rfl
    rw [run_call, harrange, hrun]
    rfl
  unfold slot?
  simp only [callSlot]
  rw [run_bind_ok _ (run_get w), hfree]
  simp only
  rw [hf]
  simp only
  rw [run_bind_ok _ hwarn, run_bind_ok _ hcall]
  rfl

/-- A pass over a call in text without opening braces puts the result in the place of the slot. -/
theorem run_pass_call {name A B r : Text} {f : Function} {after : Context} (hname : IsName name)
    (hA : '{' ∉ A) (hB : '{' ∉ B) (hfree : w.context.definitions.get? name = none)
    (hf : engine.functions.get? name = some f)
    (hrun : f.run [] { w.context with attachments := [] } = (.ok r, after)) (first : Bool) :
    (pass engine first (A ++ (callText name ++ B))).run.run w =
      (.ok (A ++ (r ++ B), true), { w with context :=
        { after with attachments := w.context.attachments ++ after.attachments } }) := by
  have hbehind : Reads [] B (B.foldr Node.consText []) := by
    have h := Reads.nil.prepend (r := []) hB
    rwa [List.append_nil] at h
  have hreads := (Reads.slot (slotText_callText hname) hbehind).prepend hA
  have hslotSimple : (Node.slot (callSlot name) (callText name)).Simple := ⟨⟨rfl, rfl⟩, rfl⟩
  have hsimple : ∀ n ∈ A.foldr Node.consText
      (.slot (callSlot name) (callText name) :: B.foldr Node.consText []), n.Simple :=
    Node.simple_foldr_consText
      (List.forall_mem_cons.2 ⟨hslotSimple, Node.simple_foldr_consText (by simp) B⟩) A
  have hnil : (outcomes engine []).run.run w = (.ok [], w) := rfl
  obtain ⟨later, hlater, htextB, hattachedB, -⟩ := run_outcomes_foldr_consText hnil B
  have hslot := run_outcome_of_some (z := callText name) (run_slot?_call hfree hf hrun)
  have houtcomes : (outcomes engine
      (.slot (callSlot name) (callText name) :: B.foldr Node.consText [])).run.run w =
      (.ok ({ text := r, changed := true, attachments := after.attachments } :: later),
        { w with context := { after with attachments := w.context.attachments } }) := by
    rw [outcomes, run_bind_ok _ hlater, run_bind_ok _ hslot]
    rfl
  obtain ⟨done, hdone, htext, hattached, hchanged⟩ := run_outcomes_foldr_consText houtcomes A
  rw [pass_of_parse (parse_of_reads hreads), run_bind_ok _ (run_defineAll_of_simple hsimple), replaceAll,
    run_bind_ok _ hdone, run_bind_ok _ (run_modify ..), run_pure, htext, hattached, hchanged]
  simp [htextB, hattachedB]

/-- Text that has no opening brace once it is masked is left as it is by the passes behind the first one. -/
theorem run_passes_quiet {t : Text} (h : '{' ∉ (w.vault.mask t).1) (n : Nat) :
    (passes engine (n + 1) false t).run.run w =
      (.ok (w.vault.mask t).1, { w with vault := (w.vault.mask t).2 }) := by
  obtain ⟨ns, hns, hslots, hdefines⟩ := (Calm.of_not_mem (P := fun _ => False) h).exists_reads
  have hleaves : ∀ m ∈ ns, engine.leaves w.context.definitions m = true := by
    intro m hm
    cases m with
    | text s => rfl
    | define d source => exact absurd hm (hdefines d source)
    | slot s z => exact (hslots s z hm).2.elim
  have hpass : (pass engine false (w.vault.mask t).1).run.run { w with vault := (w.vault.mask t).2 } =
      (.ok ((w.vault.mask t).1, false), { w with vault := (w.vault.mask t).2 }) :=
    run_pass_of_leaves (parse_of_reads hns) hleaves
  rw [passes_later, run_bind_ok _ (run_mask t w), run_bind_ok _ hpass]
  rfl

theorem run_passes_error {t : Text} {e : Error} (h : parse (w.vault.mask t).1 = .error e) (n : Nat) :
    (passes engine (n + 1) false t).run.run w = (.error e, { w with vault := (w.vault.mask t).2 }) := by
  have hpass : (pass engine false (w.vault.mask t).1).run.run { w with vault := (w.vault.mask t).2 } =
      (.error e, { w with vault := (w.vault.mask t).2 }) := by
    rw [pass, h]
    rfl
  rw [passes_later, run_bind_ok _ (run_mask t w), run_bind, hpass]

end Rendering

/-- The text has no braces, no code and no comments. -/
def Bare (t : Text) : Prop := ∀ c ∈ t, c ≠ '{' ∧ c ≠ '}' ∧ c ≠ '`' ∧ c ≠ '/'

instance (t : Text) : Decidable (Bare t) := List.decidableBAll _ t

namespace Engine

open Rendering

/-- A call in bare text is rendered like its result in this text, as long as passes are left. -/
theorem render_call {engine : Engine} {c after : Context} {f : Function} {name A B r : Text}
    (hc : c.options.matchesOnly = false) (hname : IsName name)
    (hfree : c.definitions.get? name = none) (hf : engine.functions.get? name = some f)
    (hrun : f.run [] { c with attachments := [] } = (.ok r, after)) (hA : Bare A) (hB : Bare B) :
    engine.render (A ++ (callText name ++ B)) c =
      match (passes engine 4 false (A ++ (r ++ B))).run.run
          ⟨{ after with attachments := c.attachments ++ after.attachments }, .empty⟩ with
      | (.ok x, w) => (.ok (.text (w.vault.restore x)), w.context)
      | (.error e, w) => (.error e, w.context) := by
  have hplain : ∀ ch ∈ A ++ (callText name ++ B), ch ≠ '`' ∧ ch ≠ '/' := by
    intro ch hch
    simp only [callText, List.mem_append, List.mem_cons] at hch
    rcases hch with hch | (rfl | rfl | hch | hch) | hch
    · exact (hA _ hch).2.2
    · exact ⟨by decide, by decide⟩
    · exact ⟨by decide, by decide⟩
    · have hnamechar := hname.isNameChar _ hch
      constructor <;> (rintro rfl; exact absurd hnamechar (by decide))
    · constructor <;> (rintro rfl; exact absurd hch (by decide))
    · exact (hB _ hch).2.2
  have hprepare : prepare (A ++ (callText name ++ B)) = (A ++ (callText name ++ B), .empty) := by
    rw [prepare, Vault.mask_of_not_mem _ fun h => (hplain _ h).1 rfl,
      Comment.strip_of_free (Comment.free_of_not_mem fun h => (hplain _ h).2 rfl)]
  have hpass := run_pass_call (w := ⟨c, .empty⟩) hname (fun h => (hA _ h).1 rfl)
    (fun h => (hB _ h).1 rfl) hfree hf hrun true
  rw [render_run engine _ hc, hprepare, maxPasses, passes_first, run_bind_ok _ hpass]
  rfl

end Engine

/-! ## Masked listings -/

namespace Listing

def LastBlank (A : Text) : Prop := ∃ x b, A = x ++ b ∧ StartsLine x ∧ ∀ c ∈ b, isLineBlank c = true

theorem all_isProse_pieces {t : Text} (h : '`' ∉ t) : (pieces t).all Code.Piece.isProse = true :=
  (Vault.mask_eq_self_iff .empty t).1 (Vault.mask_of_not_mem .empty h)

theorem countP_of_all_isProse {ps : List Code.Piece} (h : ps.all Code.Piece.isProse = true) :
    ps.countP (fun piece => !piece.isProse) = 0 := by
  rw [List.countP_eq_zero]
  intro piece hpiece
  simpa using List.all_eq_true.1 h piece hpiece

theorem not_mem_of_prose_mem {c : Char} {s : Text} {ps : List Code.Piece} (hs : .prose s ∈ ps)
    (hc : c ∉ Code.source ps) : c ∉ s :=
  fun hmem => hc (List.mem_flatMap.2 ⟨_, hs, hmem⟩)

theorem brace_not_mem_maskPieces : ∀ {ps : List Code.Piece} {v : Vault},
    (∀ s, .prose s ∈ ps → '{' ∉ s) → '{' ∉ (v.maskPieces ps).1 := by
  intro ps
  induction ps with
  | nil => intro v _; simp [Vault.maskPieces]
  | cons piece ps ih =>
      intro v h
      have hrest : ∀ s, .prose s ∈ ps → '{' ∉ s := fun s hs => h s (List.mem_cons_of_mem _ hs)
      cases piece with
      | prose s =>
          show '{' ∉ s ++ (v.maskPieces ps).1
          rw [List.mem_append, not_or]
          exact ⟨h s (List.mem_cons_self ..), ih hrest⟩
      | code g =>
          show '{' ∉ Vault.placeholder v.segments.length ++ ((v.protect g).2.maskPieces ps).1
          rw [List.mem_append, not_or]
          exact ⟨Vault.brace_not_mem_placeholder _, ih hrest⟩

variable {A B : Text} {files : Listing}

/-- Behind a blank line a listing is masked as a whole, with one code for each file. -/
theorem mask_format (hA : files = [] ∨ LastBlank A) (hbareA : Bare A) (hbareB : Bare B)
    (hpaths : ∀ file ∈ files, Titles file.1) (v : Vault) :
    '{' ∉ (v.mask (A ++ (files.format ++ B))).1 ∧
      (Code.spans (A ++ (files.format ++ B))).length = files.length := by
  have hticksB : '`' ∉ B := fun h => (hbareB _ h).2.2.1 rfl
  have hbraceB : '{' ∉ B := fun h => (hbareB _ h).1 rfl
  rw [Code.spans, Vault.length_spansFrom, Vault.mask]
  by_cases hfiles : files = []
  · subst hfiles
    have hticks : '`' ∉ A ++ (format [] ++ B) := by
      show '`' ∉ A ++ B
      rw [List.mem_append, not_or]
      exact ⟨fun h => (hbareA _ h).2.2.1 rfl, hticksB⟩
    refine ⟨?_, countP_of_all_isProse (all_isProse_pieces hticks)⟩
    refine brace_not_mem_maskPieces fun s hs => not_mem_of_prose_mem hs ?_
    rw [Code.source_pieces]
    show '{' ∉ A ++ B
    rw [List.mem_append, not_or]
    exact ⟨fun h => (hbareA _ h).1 rfl, hbraceB⟩
  · obtain ⟨x, b, rfl, hx, hb⟩ := hA.resolve_left hfiles
    have hticksx : '`' ∉ x := fun h => (hbareA _ (List.mem_append_left _ h)).2.2.1 rfl
    have hbracex : '{' ∉ x := fun h => (hbareA _ (List.mem_append_left _ h)).1 rfl
    obtain ⟨ps, hps, rfl, hpieces⟩ := Code.exists_pieces_append hx (all_isProse_pieces hticksx)
      (b ++ (files.format ++ B))
    rw [List.append_assoc, hpieces, pieces_format B hfiles hpaths hb]
    constructor
    · refine brace_not_mem_maskPieces fun s hs => ?_
      rcases List.mem_append.1 hs with hs | hs
      · exact not_mem_of_prose_mem hs hbracex
      · rcases List.mem_append.1 hs with hs | hs
        · rw [eq_of_prose_mem_formatPieces hs]
          decide
        · exact not_mem_of_prose_mem hs (by rwa [Code.source_pieces])
    · rw [List.countP_append, List.countP_append, countP_of_all_isProse hps, countP_formatPieces,
        countP_of_all_isProse (all_isProse_pieces hticksB)]
      omega

/-! ## Listings behind other text -/

def openFile : Listing := [(['a'], ['{', '{'])]

theorem eq_of_append_cons {m : Char} {s t u v : Text} (h : s ++ m :: u = t ++ m :: v) (hs : m ∉ s)
    (ht : m ∉ t) : s = t := by
  rcases Code.exists_of_append_eq h with ⟨e, rfl, -⟩ | ⟨e, rfl, hrest⟩
  · exact absurd (by simp) hs
  · cases e with
    | nil => exact (List.append_nil s).symm
    | cons d e =>
        obtain ⟨rfl, -⟩ := List.cons.inj hrest
        exact absurd (by simp) ht

/-- Behind text that is not blank three backticks open no fence. -/
theorem fenceOpening?_title {l : Text} (hl : '`' ∉ l) (hblank : ¬∀ c ∈ l, isLineBlank c = true) :
    Code.fenceOpening? (l ++ "```a".toList) = none := by
  cases h : Code.fenceOpening? (l ++ "```a".toList) with
  | none => rfl
  | some n =>
      obtain ⟨b, after, heq, hb, hn, -⟩ := Code.fenceOpening?_eq_some_iff.1 h
      obtain ⟨k, rfl⟩ : ∃ k, n = k + 1 := ⟨n - 1, by omega⟩
      have hticks : '`' ∉ b := fun hmem => absurd (hb _ hmem) (by decide)
      have heq' : l ++ '`' :: "``a".toList = b ++ '`' :: (List.replicate k '`' ++ after) := by
        rw [← List.cons_append, ← List.replicate_succ]
        exact heq
      obtain rfl := eq_of_append_cons heq' hl hticks
      exact absurd hb hblank

/-- So the first lines of the block are prose. -/
theorem all_isProse_title {l : Text} (hline : '\n' ∉ l) (hl : '`' ∉ l)
    (hblank : ¬∀ c ∈ l, isLineBlank c = true) :
    (pieces (l ++ "```a\n\x7b\x7b\n".toList)).all Code.Piece.isProse = true := by
  have htitle : '\n' ∉ l ++ "```a".toList := by
    rw [List.mem_append, not_or]
    exact ⟨hline, by decide⟩
  have hsplit : Text.splitAt '\n' (l ++ "```a\n\x7b\x7b\n".toList) =
      [l ++ "```a".toList, ['{', '{'], []] := by
    have htext : l ++ "```a\n\x7b\x7b\n".toList =
        (l ++ "```a".toList) ++ '\n' :: "\x7b\x7b\n".toList := by simp
    rw [htext, Text.splitAt_append_cons _ htitle]
    rfl
  have hruns : (Code.inlinePieces (Code.runs (l ++ "```a".toList))).all Code.Piece.isProse = true := by
    refine Code.all_isProse_inlinePieces ?_
    rw [Code.tickLengths_runs_append hl]
    decide
  rw [pieces, hsplit, Code.all_isProse_linePieces_cons (fenceOpening?_title hl hblank) hruns]
  decide +kernel

/-- And its last line opens a fence that goes on to the end. -/
theorem pieces_lastLine (hB : '`' ∉ B) : pieces ("```".toList ++ '\n' :: B) =
    [.code (Text.join ['\n'] ("```".toList :: Text.splitAt '\n' B))] := by
  have hopens : Code.fenceOpening? "```".toList = some 3 := by decide
  have hfind : (Text.splitAt '\n' B).findIdx? (Code.closesFence 3) = none := by
    rw [List.findIdx?_eq_none_iff]
    intro line hline
    rw [← Bool.not_eq_true, Code.closesFence_iff]
    rintro ⟨b, m, after, rfl, -, hm, -⟩
    obtain ⟨front, back, hsplit⟩ := List.append_of_mem hline
    obtain ⟨w, hw⟩ := Code.exists_join_eq front (b ++ (List.replicate m '`' ++ after)) back
    rw [← Text.join_splitAt '\n' B, hsplit, hw] at hB
    have hpos : m ≠ 0 := by omega
    simp [hpos] at hB
  rw [pieces, Text.splitAt_append_cons _ (by decide), Code.linePieces]
  simp only [hopens, hfind]

theorem mask_openFile (hA : ¬LastBlank A) (hbareA : Bare A) (hbareB : Bare B) (v : Vault) :
    (v.mask (A ++ (openFile.format ++ B))).1 =
      (A ++ "```a\n".toList) ++ '{' :: '{' :: '\n' :: Vault.placeholder v.segments.length := by
  obtain ⟨x, l, rfl, hx, hl⟩ := Text.exists_line_end A
  have hticks : '`' ∉ x ++ l := fun h => (hbareA _ h).2.2.1 rfl
  rw [List.mem_append, not_or] at hticks
  have hblank : ¬∀ c ∈ l, isLineBlank c = true := fun h => hA ⟨x, l, rfl, hx, h⟩
  obtain ⟨ps, hps, -, hpieces⟩ :=
    Code.exists_pieces_append hx (all_isProse_pieces hticks.1) (l ++ "```a\n\x7b\x7b\n".toList)
  have hfront : (pieces (x ++ (l ++ "```a\n\x7b\x7b\n".toList))).all Code.Piece.isProse = true := by
    rw [hpieces, List.all_append, hps, all_isProse_title hl hticks.2 hblank]
    rfl
  obtain ⟨qs, hqs, hsource, hbehind⟩ :=
    Code.exists_pieces_append (.inr (by simp)) hfront ("```".toList ++ '\n' :: B)
  have htext : x ++ l ++ (openFile.format ++ B) =
      x ++ (l ++ "```a\n\x7b\x7b\n".toList) ++ ("```".toList ++ '\n' :: B) := by
    have hformat : openFile.format = "```a\n\x7b\x7b\n".toList ++ "```\n".toList := by decide
    rw [hformat]
    simp
  rw [htext, Vault.mask, hbehind, Vault.maskPieces_append v _ hqs, hsource,
    pieces_lastLine fun h => (hbareB _ h).2.2.1 rfl]
  simp [Vault.maskPieces, Vault.protect]

end Listing

namespace Engine

open Rendering Listing

/-- The listing of files in bare text, rendered from a call of the function that gives it. Behind a blank line
it is shown as it is, with what the function did to the context, unless a path has a placeholder of one of the
blocks. Behind any other line the file with two opening braces makes the rendering fail. -/
theorem render_listing (engine : Engine) (c after : Context) (f : Function) (name A B : Text)
    (files : Listing) (hc : c.options.matchesOnly = false) (hname : IsName name)
    (hfree : c.definitions.get? name = none) (hf : engine.functions.get? name = some f)
    (hrun : f.run [] { c with attachments := [] } = (.ok files.format, after))
    (hpaths : ∀ file ∈ files, Titles file.1) (hA : Bare A) (hB : Bare B) :
    (files = [] ∨ LastBlank A →
      (engine.render (A ++ (callText name ++ B)) c).2 =
          { after with attachments := c.attachments ++ after.attachments } ∧
        ((engine.render (A ++ (callText name ++ B)) c).1 = .ok (.text (A ++ (files.format ++ B))) ↔
          ¬Vault.Names files.length (A ++ (files.format ++ B)))) ∧
    (¬LastBlank A → files = openFile →
      ∃ e, (engine.render (A ++ (callText name ++ B)) c).1 = .error e) := by
  rw [render_call hc hname hfree hf hrun hA hB]
  refine ⟨fun hblank => ?_, fun hblank hfiles => ?_⟩
  · obtain ⟨hbrace, hlength⟩ := mask_format hblank hA hB hpaths .empty
    rw [run_passes_quiet hbrace]
    refine ⟨rfl, ?_⟩
    rw [← hlength]
    constructor
    · intro h
      exact Vault.not_names_of_restore_mask (Output.text.inj (Except.ok.inj h))
    · intro h
      exact congrArg (fun t => Except.ok (Output.text t)) (Vault.restore_mask_of_not_names h)
  · subst hfiles
    have hfront : '{' ∉ A ++ "```a\n".toList := by
      rw [List.mem_append, not_or]
      exact ⟨fun h => (hA _ h).1 rfl, by decide⟩
    obtain ⟨e, he⟩ := exists_error_of_open (b := '\n' :: Vault.placeholder 0) hfront (by simp) (by simp)
      (by decide)
    refine ⟨e, ?_⟩
    have hmask := mask_openFile hblank hA hB .empty
    rw [run_passes_error (by rw [hmask]; exact he)]

def listingEngine (files : Listing) : Engine :=
  { functions := { entries := [("ls".toList,
      { name := "ls".toList, params := [], run := fun _ c => (.ok files.format, c) })] } }

def noteFiles : Listing :=
  [("a.md".toList, bracketed "```\n[[ls()]]\n```"), ("b/c".toList, bracketed "[d]``")]

/-- Two files listed behind a blank line, and one behind other text. -/
theorem render_listing_notes :
    (listingEngine noteFiles).render ("All:\n ".toList ++ (callText "ls".toList ++ ", done".toList)) {} =
        (.ok (.text ("All:\n ".toList ++ (noteFiles.format ++ ", done".toList))), {}) ∧
      ¬LastBlank "All: ".toList ∧
      ∃ e, ((listingEngine openFile).render ("All: ".toList ++ (callText "ls".toList ++ [])) {}).1 =
        .error e := by
  have hname : IsName "ls".toList := ⟨'l', ['s'], rfl, by decide, List.all_eq_true.1 (by decide)⟩
  have hblank : LastBlank "All:\n ".toList :=
    ⟨"All:\n".toList, " ".toList, rfl, .inr rfl, List.all_eq_true.1 (by decide)⟩
  have htext : ¬LastBlank "All: ".toList := by
    rintro ⟨x, b, heq, hx, hb⟩
    have hx : x = [] := hx.resolve_right fun hlast => by
      have hmem : '\n' ∈ "All: ".toList := heq ▸ List.mem_append_left _ (List.mem_of_getLast? hlast)
      exact absurd hmem (by decide +kernel)
    rw [hx, List.nil_append] at heq
    exact absurd (hb 'A' (heq ▸ List.mem_cons_self)) (by decide)
  have hnames : ¬Vault.Names noteFiles.length ("All:\n ".toList ++ (noteFiles.format ++ ", done".toList)) :=
    Vault.not_names_of_not_mem (by decide +kernel)
  obtain ⟨hcontext, hshown⟩ := (render_listing (listingEngine noteFiles) {} {} _ "ls".toList
    "All:\n ".toList ", done".toList noteFiles rfl hname rfl rfl rfl (by unfold Titles; decide +kernel)
    (by decide +kernel) (by decide +kernel)).1 (.inr hblank)
  refine ⟨Prod.ext (hshown.2 hnames) hcontext, htext, ?_⟩
  exact (render_listing (listingEngine openFile) {} {} _ "ls".toList "All: ".toList [] openFile rfl hname
    rfl rfl rfl (by unfold Titles; decide +kernel) (by decide +kernel) (by decide +kernel)).2 htext rfl

/-- A listing on a line with other text, and one of a file with a placeholder for its name. -/
theorem render_listing_differs :
    ((listingEngine openFile).render ('x' :: callText "ls".toList) {}).1.isOk = false ∧
      ((listingEngine [("\uE0000\uE001".toList, [])]).render (callText "ls".toList) {}).1 ≠
        .ok (.text (Listing.format [("\uE0000\uE001".toList, [])])) := by
  decide +kernel

end Engine
end Stencil
