import Mathlib.Data.List.Basic
import Mathlib.Data.List.Induction
import Mathlib.Data.List.TakeWhile
import Stencil.Proofs.Text.Lines
import Stencil.Settings.Basic

/-! # Settings line by line

The options that a text sets are those of its good lines, applied one after the other, and its bad lines are
reported by their numbers (`readLines_eq`). So a text that is put behind complete lines adds its settings to
theirs, and a text is read alike without its bad lines (`read_line_by_line`). -/
set_option autoImplicit false
namespace Stencil

namespace Text

theorem trim_concat {c : Char} (hc : isWhiteSpace c = true) (t : Text) : trim (t ++ [c]) = trim t := by
  have hend : ∀ u : Text, trimEnd (u ++ [c]) = trimEnd u := by
    intro u
    rw [trimEnd, List.reverse_append, List.reverse_singleton, List.singleton_append,
      List.dropWhile_cons_of_pos hc]
    rfl
  rw [trim, trimStart, List.dropWhile_append]
  split
  next hnil =>
    rw [List.dropWhile_cons_of_pos hc, trim, trimStart, List.isEmpty_iff.1 hnil]
    rfl
  next => exact hend _

theorem trim_eq_nil {t : Text} (h : ∀ c ∈ t, isWhiteSpace c = true) : trim t = [] := by
  rw [trim, trimStart, List.dropWhile_eq_nil_iff.2 h]
  rfl

theorem trim_dropReturn (line : Text) : trim (dropReturn line) = trim line := by
  rw [dropReturn]
  split
  next h =>
    obtain ⟨front, rfl⟩ := List.isSuffixOf_iff_suffix.1 h
    rw [List.dropLast_concat, trim_concat (by decide)]
  next => rfl

/-- Lines, counted from 1, with other ones in place of those with these numbers. -/
def replaceLines (instead : Nat → Text) (numbers : List Nat) (ls : List Text) : List Text :=
  (ls.zipIdx 1).map fun p => if p.2 ∈ numbers then instead p.2 else p.1

def withLines (instead : Nat → Text) (numbers : List Nat) (t : Text) : Text :=
  join ['\n'] (replaceLines instead numbers (splitAt '\n' t))

theorem splitAt_withLines {instead : Nat → Text} (hinstead : ∀ n, '\n' ∉ instead n) (numbers : List Nat)
    (t : Text) :
    splitAt '\n' (withLines instead numbers t) = replaceLines instead numbers (splitAt '\n' t) := by
  refine splitAt_join (fun h => ?_) fun line hline => ?_
  · rw [replaceLines, List.map_eq_nil_iff, List.zipIdx_eq_nil_iff] at h
    exact splitAt_ne_nil _ _ h
  · obtain ⟨p, hp, rfl⟩ := List.mem_map.1 hline
    split
    next => exact hinstead p.2
    next => exact not_mem_of_mem_splitAt t (List.fst_mem_of_mem_zipIdx hp)

end Text

namespace Setting

def good? (line : Text) : Option Setting :=
  match ofLine? line with
  | some (.ok s) => some s
  | _ => none

def fault? (line : Text) : Option SettingFault :=
  match ofLine? line with
  | some (.error fault) => some fault
  | _ => none

theorem ofLine?_congr {line line' : Text} (h : Text.trim line = Text.trim line') :
    ofLine? line = ofLine? line' := by
  rw [ofLine?, ofLine?, h]

theorem ofLine?_dropReturn (line : Text) : ofLine? (Text.dropReturn line) = ofLine? line :=
  ofLine?_congr (Text.trim_dropReturn line)

theorem ofLine?_of_blank {line : Text} (h : ∀ c ∈ line, isWhiteSpace c = true) : ofLine? line = none := by
  rw [ofLine?, Text.trim_eq_nil h]

theorem good?_of_fault {line : Text} {fault : SettingFault} (h : fault? line = some fault) :
    good? line = none := by
  unfold fault? at h
  split at h
  next hline => rw [good?, hline]
  next => cases h

def wanted : Setting → List Text
  | .extensions wanted => wanted
  | _ => []

def ignored : Setting → List Text
  | .ignore patterns => patterns
  | _ => []

def baseDir? : Setting → Option Path
  | .baseDir path => some path
  | _ => none

def switch? : Setting → Option Bool
  | .matchesOnly on => some on
  | _ => none

end Setting

namespace Settings
open Setting (good? fault?)

def applyAll (o : Options) (ss : List Setting) : Options := ss.foldl (fun o s => s.apply o) o

/-- The bad ones of lines of which the first one has the number `number`. -/
def badLines (number : Nat) (ls : List Text) : List BadLine :=
  (ls.zipIdx number).filterMap fun p => (fault? p.1).map (BadLine.mk p.2)

def settings (t : Text) : List Setting := (Text.lines t).filterMap good?

def BadLine.later (k : Nat) (b : BadLine) : BadLine := { b with line := b.line + k }

/-- Reading lines goes through them once for the options and for the faults. -/
theorem readLines_eq : ∀ (ls : List Text) (o : Options) (number : Nat),
    readLines o number ls = (applyAll o (ls.filterMap good?), badLines number ls) := by
  intro ls
  induction ls with
  | nil => intro o number; rfl
  | cons line ls ih =>
      intro o number
      rw [readLines, List.filterMap_cons, badLines, List.zipIdx_cons, List.filterMap_cons, good?, fault?]
      cases Setting.ofLine? line with
      | none => exact ih o (number + 1)
      | some result =>
          cases result with
          | ok s => exact ih (s.apply o) (number + 1)
          | error fault => rw [ih]; rfl

theorem read_eq (t : Text) : read t = (applyAll {} (settings t), badLines 1 (Text.lines t)) :=
  readLines_eq (Text.lines t) {} 1

/-! ## Options -/

theorem applyAll_append (o : Options) (ss ss' : List Setting) :
    applyAll o (ss ++ ss') = applyAll (applyAll o ss) ss' := List.foldl_append

/-- Lists add up, and of the other settings the last one counts. -/
theorem applyAll_eq (o : Options) (ss : List Setting) :
    applyAll o ss =
      { extensions := o.extensions ++ ss.flatMap Setting.wanted
        ignore := o.ignore ++ ss.flatMap Setting.ignored
        baseDir := (ss.filterMap Setting.baseDir?).getLast?.getD o.baseDir
        matchesOnly := (ss.filterMap Setting.switch?).getLast?.getD o.matchesOnly } := by
  induction ss using List.reverseRecOn with
  | nil => simp [applyAll]
  | append_singleton ss s ih =>
      have hlast : applyAll o (ss ++ [s]) = s.apply (applyAll o ss) := applyAll_append o ss [s]
      rw [hlast, ih]
      cases s <;> simp [Setting.apply, Setting.wanted, Setting.ignored, Setting.baseDir?, Setting.switch?]

/-! ## Bad lines -/

theorem badLines_append (number : Nat) (ls ms : List Text) :
    badLines number (ls ++ ms) = badLines number ls ++ badLines (number + ls.length) ms := by
  rw [badLines, List.zipIdx_append, List.filterMap_append]
  rfl

theorem badLines_add (k number : Nat) (ls : List Text) :
    badLines (k + number) ls = (badLines number ls).map (BadLine.later k) := by
  rw [badLines, ← List.map_snd_add_zipIdx_eq_zipIdx, List.filterMap_map, badLines, List.map_filterMap]
  refine List.filterMap_congr fun p _ => ?_
  rw [Function.comp_apply, Option.map_map]
  rfl

theorem pairwise_badLines (number : Nat) (ls : List Text) :
    ((badLines number ls).map BadLine.line).Pairwise (· < ·) := by
  have hnumbers : (ls.zipIdx number).Pairwise fun p q => p.2 < q.2 := by
    rw [← List.pairwise_map, List.zipIdx_map_snd]
    exact List.pairwise_lt_range'
  refine List.pairwise_map.2 (hnumbers.filterMap _ fun p q hlt b hb b' hb' => ?_)
  obtain ⟨_, -, rfl⟩ := Option.map_eq_some_iff.1 hb
  obtain ⟨_, -, rfl⟩ := Option.map_eq_some_iff.1 hb'
  exact hlt

/-- The numbers of the bad lines are the numbers under which these lines stand. -/
theorem mem_badLines_iff {number : Nat} {ls : List Text} {p : Text × Nat} (hp : p ∈ ls.zipIdx number) :
    p.2 ∈ (badLines number ls).map BadLine.line ↔ (fault? p.1).isSome = true := by
  constructor
  · intro h
    obtain ⟨b, hb, hline⟩ := List.mem_map.1 h
    obtain ⟨q, hq, hmade⟩ := List.mem_filterMap.1 hb
    obtain ⟨fault, hfault, rfl⟩ := Option.map_eq_some_iff.1 hmade
    -- a number is that of one line only
    have hplace : q.2 = p.2 := hline
    have hsame := (List.mk_mem_zipIdx_iff_le_and_getElem?_sub.1 hq).2
    rw [hplace, (List.mk_mem_zipIdx_iff_le_and_getElem?_sub.1 hp).2] at hsame
    rw [Option.some.inj hsame, hfault]
    rfl
  · intro h
    obtain ⟨fault, hfault⟩ := Option.isSome_iff_exists.1 h
    exact List.mem_map.2 ⟨⟨p.2, fault⟩, List.mem_filterMap.2 ⟨p, hp, by rw [hfault]; rfl⟩, rfl⟩

/-! ## The parts between line feeds

Carriage returns at the ends of lines and an empty last part make no difference to what is read, so that lines
may be taken for the parts between line feeds. -/

theorem settings_eq (t : Text) : settings t = (Text.splitAt '\n' t).filterMap good? := by
  obtain ⟨front, last, hsplit⟩ := Text.exists_splitAt_concat t
  have hends : good? ∘ Text.dropReturn = good? := by
    funext line
    rw [Function.comp_apply, good?, Setting.ofLine?_dropReturn]
    rfl
  rw [settings, Text.lines_of_splitAt hsplit, hsplit, List.filterMap_append, List.filterMap_append,
    List.filterMap_map, hends]
  split
  -- an empty last part is no line, and as a line it would say nothing
  next hlast => rw [hlast]; rfl
  next => rfl

theorem badLines_lines (t : Text) : badLines 1 (Text.lines t) = badLines 1 (Text.splitAt '\n' t) := by
  obtain ⟨front, last, hsplit⟩ := Text.exists_splitAt_concat t
  have hfront : badLines 1 (front.map Text.dropReturn) = badLines 1 front := by
    rw [badLines, List.zipIdx_map, List.filterMap_map]
    refine List.filterMap_congr fun p _ => ?_
    rw [Function.comp_apply, Prod.map_fst, fault?, Setting.ofLine?_dropReturn]
    rfl
  rw [Text.lines_of_splitAt hsplit, hsplit, badLines_append, badLines_append, hfront, List.length_map]
  split
  next hlast => rw [hlast]; rfl
  next => rfl

/-! ## Bad lines taken out -/

section
variable {instead : Nat → Text} (hinstead : ∀ n, Setting.ofLine? (instead n) = none) (ls : List Text)
include hinstead

theorem good?_replaceLines :
    (Text.replaceLines instead ((badLines 1 ls).map BadLine.line) ls).filterMap good? =
      ls.filterMap good? := by
  have hfst : ls.filterMap good? = (ls.zipIdx 1).filterMap (good? ∘ Prod.fst) := by
    rw [← List.filterMap_map, List.zipIdx_map_fst]
  rw [Text.replaceLines, List.filterMap_map, hfst]
  refine List.filterMap_congr fun p hp => ?_
  rw [Function.comp_apply, Function.comp_apply]
  split
  next hbad =>
    obtain ⟨fault, hfault⟩ := Option.isSome_iff_exists.1 ((mem_badLines_iff hp).1 hbad)
    rw [Setting.good?_of_fault hfault, good?, hinstead]
  next => rfl

theorem badLines_replaceLines :
    badLines 1 (Text.replaceLines instead ((badLines 1 ls).map BadLine.line) ls) = [] := by
  refine List.filterMap_eq_nil_iff.2 fun q hq => ?_
  obtain ⟨p, hp, hline⟩ := List.mem_map.1 (List.fst_mem_of_mem_zipIdx hq)
  rw [← hline, Option.map_eq_none_iff]
  split
  next => rw [fault?, hinstead]
  next hgood => exact Option.not_isSome_iff_eq_none.1 fun hbad => hgood ((mem_badLines_iff hp).2 hbad)

end

/-- Without its bad lines a text sets the same, and nothing is wrong with it. -/
theorem read_withLines {instead : Nat → Text} (hinstead : ∀ n, '\n' ∉ instead n)
    (hblank : ∀ n, Setting.ofLine? (instead n) = none) (t : Text) :
    read (Text.withLines instead ((read t).2.map BadLine.line) t) = ((read t).1, []) := by
  simp only [read_eq, badLines_lines, settings_eq, Text.splitAt_withLines hinstead, good?_replaceLines hblank,
    badLines_replaceLines hblank]

/-! ## Texts behind complete lines -/

theorem read_append {a : Text} (ha : Text.StartsLine a) (b : Text) :
    read (a ++ b) = (applyAll (read a).1 (settings b),
      (read a).2 ++ (read b).2.map (BadLine.later (Text.lines a).length)) := by
  have hbad : badLines 1 (Text.lines a ++ Text.lines b) = badLines 1 (Text.lines a) ++
      (badLines 1 (Text.lines b)).map (BadLine.later (Text.lines a).length) := by
    rw [badLines_append, Nat.add_comm 1, badLines_add]
  rw [read_eq, read_eq a, read_eq b, Text.lines_append ha, hbad, settings, Text.lines_append ha,
    List.filterMap_append, applyAll_append]
  rfl

/-- Settings are read line by line. A text behind complete lines adds its settings to theirs and its faults
behind theirs, with the numbers that its lines have now; the numbers of faults ascend; and with blank lines in
place of the bad ones, and only of these, a text sets the same and has no faults. -/
theorem read_line_by_line (a b t : Text) :
    (a = [] ∨ a.getLast? = some '\n' →
      ((read (a ++ b)).1 = applyAll (read a).1 (settings b) ∧
        (read (a ++ b)).1 =
          { extensions := (read a).1.extensions ++ (read b).1.extensions
            ignore := (read a).1.ignore ++ (read b).1.ignore
            baseDir := ((settings b).filterMap Setting.baseDir?).getLast?.getD (read a).1.baseDir
            matchesOnly := ((settings b).filterMap Setting.switch?).getLast?.getD (read a).1.matchesOnly }) ∧
      (read (a ++ b)).2 = (read a).2 ++ (read b).2.map (BadLine.later (Text.lines a).length)) ∧
    ((read t).2.map BadLine.line).Pairwise (· < ·) ∧
    ∀ instead : Nat → Text, (∀ n, '\n' ∉ instead n ∧ ∀ c ∈ instead n, isWhiteSpace c = true) →
      read (Text.withLines instead ((read t).2.map BadLine.line) t) = ((read t).1, []) := by
  refine ⟨fun ha => ?_, ?_, fun instead hinstead => ?_⟩
  · have hread := read_append ha b
    have hoptions : (read (a ++ b)).1 = applyAll (read a).1 (settings b) := congrArg Prod.fst hread
    refine ⟨⟨hoptions, ?_⟩, congrArg Prod.snd hread⟩
    rw [hoptions, applyAll_eq, read_eq b, applyAll_eq {} (settings b)]
    rfl
  · rw [read_eq]
    exact pairwise_badLines 1 (Text.lines t)
  · exact read_withLines (fun n => (hinstead n).1) (fun n => Setting.ofLine?_of_blank (hinstead n).2) t

def switchLines : Text := "colour = red\nmatches=on\r\n".toList

def patternLines : Text := "; kept\nbase_dir a b\nignore \"*.bak\"\nbase_dir = prompts".toList

theorem read_line_by_line_patterns : switchLines.getLast? = some '\n' ∧
    read (switchLines ++ patternLines) =
      ({ matchesOnly := true, baseDir := "prompts".toList, ignore := ["*.bak".toList] },
        [⟨1, .unknownKey "colour".toList⟩, ⟨4, .notOneDirectory⟩]) ∧
    (read (switchLines ++ patternLines)).2 =
      (read switchLines).2 ++ (read patternLines).2.map (BadLine.later (Text.lines switchLines).length) ∧
    (∀ n, '\n' ∉ List.replicate n ' ' ∧ ∀ c ∈ List.replicate n ' ', isWhiteSpace c = true) ∧
    read (Text.withLines (List.replicate · ' ') [1, 4] (switchLines ++ patternLines)) =
      ((read (switchLines ++ patternLines)).1, []) := by
  obtain ⟨happend, -, hblank⟩ := read_line_by_line switchLines patternLines (switchLines ++ patternLines)
  have hends : switchLines.getLast? = some '\n' := by decide
  have hspaces : ∀ n, '\n' ∉ List.replicate n ' ' ∧
      ∀ c ∈ List.replicate n ' ', isWhiteSpace c = true := by
    intro n
    refine ⟨fun h => absurd (List.eq_of_mem_replicate h) (by decide), fun c hc => ?_⟩
    rw [List.eq_of_mem_replicate hc]
    rfl
  exact ⟨hends, by decide +kernel, (happend (.inr hends)).2, hspaces, hblank _ hspaces⟩

end Settings
end Stencil
