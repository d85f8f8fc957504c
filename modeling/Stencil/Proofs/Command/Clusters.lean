import Stencil.Command.Arguments

/-! # Clusters of options

Switches are options that take nothing, so a cluster that begins with some of them says the same as these
options and the rest of the cluster one by one; and a directory may stand in the cluster of its option or
behind it (`parse_spelled_out`). Both hold wherever an argument is read as an option, which `Open` says of the
arguments before it. -/
set_option autoImplicit false
namespace Stencil.Arguments

def IsSwitch (c : Char) : Prop := c = 'd' ∨ c = 'm'

def Awaits (letters : Text) : Prop :=
  ∃ switches, letters = switches ++ ['b'] ∧ ∀ c ∈ switches, IsSwitch c

def Unknown (letters : Text) : Prop :=
  ∃ switches c rest, letters = switches ++ c :: rest ∧ (∀ d ∈ switches, IsSwitch d) ∧
    c ∉ ['d', 'm', 'f', 'b']

/-- An argument behind these ones is read as an option if it has the form of one: two dashes have not ended the
options, and no option waits for its directory. Behind an unknown option nothing is read any more. -/
inductive Open : List Text → Prop
  | nil : Open []
  | file {arg : Text} {rest : List Text} : cluster? arg = none → Open rest → Open (arg :: rest)
  | option {arg letters : Text} {rest : List Text} : arg ≠ ['-', '-'] → cluster? arg = some letters →
      ¬ Awaits letters → Open rest → Open (arg :: rest)
  | directory {arg letters directory : Text} {rest : List Text} : cluster? arg = some letters →
      Awaits letters → Open rest → Open (arg :: directory :: rest)
  | failed {arg letters : Text} {rest : List Text} : arg ≠ ['-', '-'] → cluster? arg = some letters →
      Unknown letters → Open (arg :: rest)

/-- The next argument is no option whatever its form: two dashes have ended the options, or the option right
before it waits for its directory. -/
def Shut (args : List Text) : Prop :=
  (∃ front rest, args = front ++ ['-', '-'] :: rest ∧ Open front) ∨
    ∃ front letters, args = front ++ ['-' :: letters] ∧ Open front ∧ Awaits letters

theorem Shut.append (front : List Text) {rest : List Text}
    (hfront : ∀ {args}, Open args → Open (front ++ args)) (h : Shut rest) : Shut (front ++ rest) := by
  rcases h with ⟨front', after, rfl, hopen⟩ | ⟨front', letters, rfl, hopen, hawaits⟩
  · exact .inl ⟨front ++ front', after, (List.append_assoc ..).symm, hfront hopen⟩
  · exact .inr ⟨front ++ front', letters, (List.append_assoc ..).symm, hfront hopen, hawaits⟩

theorem exists_of_cluster {arg letters : Text} (h : cluster? arg = some letters) : arg = '-' :: letters := by
  unfold cluster? at h
  split at h
  next => rw [Option.some.inj h]
  next => cases h

/-- There is no other way to shut the options. -/
theorem open_or_shut : ∀ args : List Text, Open args ∨ Shut args
  | [] => .inl .nil
  | arg :: rest => by
      by_cases hdashes : arg = ['-', '-']
      · exact .inr (.inl ⟨[], rest, by rw [hdashes]; rfl, .nil⟩)
      · cases hcluster : cluster? arg with
        | none => exact (open_or_shut rest).imp (.file hcluster) (Shut.append [arg] (.file hcluster))
        | some letters =>
            by_cases hawaits : Awaits letters
            · match rest with
              | [] =>
                  obtain rfl := exists_of_cluster hcluster
                  exact .inr (.inr ⟨[], letters, rfl, .nil, hawaits⟩)
              | directory :: rest =>
                  exact (open_or_shut rest).imp (.directory hcluster hawaits)
                    (Shut.append [arg, directory] (.directory hcluster hawaits))
            · exact (open_or_shut rest).imp (.option hdashes hcluster hawaits)
                (Shut.append [arg] (.option hdashes hcluster hawaits))

/-! ## The letters of a cluster -/

def switchOn (a : Arguments) (c : Char) : Arguments :=
  if c = 'd' then { a with debug := true } else { a with matchesOnly := true }

theorem readLetters_switch {c : Char} (hc : IsSwitch c) (a : Arguments) (letters : Text) :
    readLetters a (c :: letters) = readLetters (switchOn a c) letters := by
  rcases hc with rfl | rfl <;> rfl

theorem readLetters_switches : ∀ {switches : Text}, (∀ c ∈ switches, IsSwitch c) →
    ∀ (a : Arguments) (letters : Text),
      readLetters a (switches ++ letters) = readLetters (switches.foldl switchOn a) letters := by
  intro switches
  induction switches with
  | nil => intro _ a letters; rfl
  | cons c switches ih =>
      intro h a letters
      obtain ⟨hc, h⟩ := List.forall_mem_cons.1 h
      rw [List.cons_append, readLetters_switch hc, ih h, List.foldl_cons]

theorem readLetters_of_awaits {letters : Text} (h : Awaits letters) (a : Arguments) :
    ∃ a', readLetters a letters = .ok (a', true) := by
  obtain ⟨switches, rfl, hswitches⟩ := h
  exact ⟨_, readLetters_switches hswitches a ['b']⟩

theorem readLetters_of_unknown {letters : Text} (h : Unknown letters) (a : Arguments) :
    ∃ c, readLetters a letters = .error (.unknownOption c) := by
  obtain ⟨switches, c, rest, rfl, hswitches, hc⟩ := h
  simp only [List.mem_cons, List.not_mem_nil, or_false, not_or] at hc
  refine ⟨c, ?_⟩
  rw [readLetters_switches hswitches, readLetters, if_neg hc.1, if_neg hc.2.1, if_neg hc.2.2.1,
    if_neg hc.2.2.2]

/-- A cluster that is read with a directory still to come is switches and the option that takes it. -/
theorem awaits_of_readLetters : ∀ {letters : Text} {a a' : Arguments},
    readLetters a letters = .ok (a', true) → Awaits letters := by
  intro letters
  induction letters with
  | nil => intro a a' h; cases h
  | cons c letters ih =>
      intro a a' h
      by_cases hc : IsSwitch c
      · rw [readLetters_switch hc] at h
        obtain ⟨switches, rfl, hswitches⟩ := ih h
        exact ⟨c :: switches, rfl, List.forall_mem_cons.2 ⟨hc, hswitches⟩⟩
      · obtain ⟨hd, hm⟩ := not_or.1 hc
        rw [readLetters, if_neg hd, if_neg hm] at h
        by_cases hf : c = 'f'
        · rw [if_pos hf] at h
          cases h
        · by_cases hb : c = 'b'
          · rw [if_neg hf, if_pos hb] at h
            by_cases hrest : letters = []
            · exact ⟨[], by rw [hb, hrest]; rfl, List.forall_mem_nil _⟩
            · rw [if_neg hrest] at h
              cases h
          · rw [if_neg hf, if_neg hb] at h
            cases h

/-! ## The arguments in order -/

def behindCluster (rest : List Text) : Except UsageError (Arguments × Bool) →
    Except UsageError (Arguments × List Text)
  | .error e => .error e
  | .ok (a, false) => readOptions a rest
  | .ok (a, true) =>
    match rest with
    | [] => .error .missingDirectory
    | directory :: rest => readOptions { a with baseDir := some directory } rest

theorem readOptions_file {arg : Text} (h : cluster? arg = none) (a : Arguments) (rest : List Text) :
    readOptions a (arg :: rest) =
      (readOptions a rest).map fun (a, files) => (a, arg :: files) := by
  have hne : arg ≠ ['-', '-'] := by
    rintro rfl
    cases h
  rw [readOptions, if_neg hne, h]

theorem readOptions_cluster {arg letters : Text} (hne : arg ≠ ['-', '-'])
    (h : cluster? arg = some letters) (a : Arguments) (rest : List Text) :
    readOptions a (arg :: rest) = behindCluster rest (readLetters a letters) := by
  rw [readOptions, if_neg hne, h]
  dsimp only
  rcases readLetters a letters with e | ⟨a, _ | _⟩
  · rfl
  · rfl
  · cases rest <;> rfl

/-- Arguments that are read alike are read alike behind others too. -/
theorem readOptions_append_congr {front back back' : List Text} (hfront : Open front)
    (h : ∀ a, readOptions a back = readOptions a back') :
    ∀ a, readOptions a (front ++ back) = readOptions a (front ++ back') := by
  -- the options that `front` sets go on to what is behind it, hence for all `a`
  induction hfront with
  | nil => exact h
  | file harg _ ih =>
      intro a
      rw [List.cons_append, List.cons_append, readOptions_file harg, readOptions_file harg, ih]
  | option hne harg hawaits _ ih =>
      intro a
      rw [List.cons_append, List.cons_append, readOptions_cluster hne harg, readOptions_cluster hne harg]
      rcases hletters : readLetters a _ with e | ⟨a', _ | _⟩
      · rfl
      · exact ih a'
      · exact absurd (awaits_of_readLetters hletters) hawaits
  | @directory arg letters directory rest harg hawaits _ ih =>
      intro a
      have hne : arg ≠ ['-', '-'] := by
        rintro rfl
        obtain rfl := Option.some.inj harg
        obtain ⟨a', ha'⟩ := readLetters_of_awaits hawaits {}
        cases ha'
      obtain ⟨a', ha'⟩ := readLetters_of_awaits hawaits a
      -- the directory is taken as it is, two dashes and options too
      rw [List.cons_append, List.cons_append, List.cons_append, List.cons_append,
        readOptions_cluster hne harg, readOptions_cluster hne harg, ha']
      exact ih _
  | failed hne harg hunknown =>
      intro a
      obtain ⟨c, hc⟩ := readLetters_of_unknown hunknown a
      rw [List.cons_append, List.cons_append, readOptions_cluster hne harg, readOptions_cluster hne harg, hc]
      rfl

theorem parse_append_congr {front back back' : List Text} (hfront : Open front)
    (h : ∀ a, readOptions a back = readOptions a back') : parse (front ++ back) = parse (front ++ back') := by
  rw [parse, parse, readOptions_append_congr hfront h]

theorem readOptions_letters {letters : Text} (hne : letters ≠ []) (hdash : letters.head? ≠ some '-')
    (a : Arguments) (rest : List Text) :
    readOptions a (('-' :: letters) :: rest) = behindCluster rest (readLetters a letters) := by
  obtain ⟨c, letters, rfl⟩ := List.exists_cons_of_ne_nil hne
  refine readOptions_cluster (fun heq => hdash ?_) rfl a rest
  rw [(List.cons.inj heq).2]
  rfl

theorem readOptions_switches {rest : List Text} : ∀ {switches : Text}, (∀ c ∈ switches, IsSwitch c) →
    ∀ a : Arguments, readOptions a (switches.map (fun c => ['-', c]) ++ rest) =
      readOptions (switches.foldl switchOn a) rest := by
  intro switches
  induction switches with
  | nil => intro _ a; rfl
  | cons c switches ih =>
      intro h a
      obtain ⟨hc, h⟩ := List.forall_mem_cons.1 h
      have hswitch : ∀ behind, readOptions a (['-', c] :: behind) = readOptions (switchOn a c) behind := by
        intro behind
        rcases hc with rfl | rfl <;> rfl
      rw [List.map_cons, List.cons_append, hswitch, ih h, List.foldl_cons]

theorem head?_append_ne {switches t : Text} (h : ∀ c ∈ switches, IsSwitch c) (ht : t.head? ≠ some '-') :
    (switches ++ t).head? ≠ some '-' := by
  cases switches with
  | nil => exact ht
  | cons c switches =>
      rintro hc
      obtain rfl := Option.some.inj hc
      rcases h '-' (List.mem_cons_self ..) with hdash | hdash <;> cases hdash

/-- Switches in front of a cluster say the same as the switches one by one before the cluster. -/
theorem readOptions_spelled_out {s t : Text} (hs : ∀ c ∈ s, IsSwitch c) (hne : t ≠ [])
    (hdash : t.head? ≠ some '-') (a : Arguments) (rest : List Text) :
    readOptions a (('-' :: (s ++ t)) :: rest) =
      readOptions a (s.map (fun c => ['-', c]) ++ ('-' :: t) :: rest) := by
  rw [readOptions_letters (List.append_ne_nil_of_right_ne_nil s hne) (head?_append_ne hs hdash),
    readLetters_switches hs, readOptions_switches hs, readOptions_letters hne hdash]

theorem readOptions_directory {s directory : Text} (hs : ∀ c ∈ s, IsSwitch c) (hne : directory ≠ [])
    (a : Arguments) (rest : List Text) :
    readOptions a (('-' :: (s ++ ['b'])) :: directory :: rest) =
      readOptions a (('-' :: (s ++ 'b' :: directory)) :: rest) := by
  have hletters : ∀ after : Text, s ++ 'b' :: after ≠ [] ∧ (s ++ 'b' :: after).head? ≠ some '-' :=
    fun after => ⟨List.append_ne_nil_of_right_ne_nil s (List.cons_ne_nil _ _), head?_append_ne hs (by simp)⟩
  have hembedded : readLetters (s.foldl switchOn a) ('b' :: directory) =
      .ok ({ s.foldl switchOn a with baseDir := some directory }, false) := by
    rw [readLetters]
    simp [hne]
  rw [readOptions_letters (hletters _).1 (hletters _).2, readOptions_letters (hletters _).1 (hletters _).2,
    readLetters_switches hs, readLetters_switches hs, hembedded]
  rfl

/-- Behind arguments that leave the options open, a cluster that begins with switches gives the same result as
the switches one by one and the rest of the cluster, and a directory gives the same result as an argument behind
its option and as the rest of the cluster. -/
theorem parse_spelled_out {front : List Text} (hfront : Open front) (back : List Text) :
    (∀ s t : Text, (∀ c ∈ s, c = 'd' ∨ c = 'm') → t ≠ [] → t.head? ≠ some '-' →
      parse (front ++ ['-' :: (s ++ t)] ++ back) =
        parse (front ++ s.map (fun c => ['-', c]) ++ ['-' :: t] ++ back)) ∧
    (∀ s directory : Text, (∀ c ∈ s, c = 'd' ∨ c = 'm') → directory ≠ [] →
      parse (front ++ ['-' :: (s ++ ['b']), directory] ++ back) =
        parse (front ++ ['-' :: (s ++ 'b' :: directory)] ++ back)) := by
  constructor
  · intro s t hs hne hdash
    rw [List.append_assoc, List.append_assoc, List.append_assoc]
    exact parse_append_congr hfront fun a => readOptions_spelled_out hs hne hdash a back
  · intro s directory hs hne
    rw [List.append_assoc, List.append_assoc]
    exact parse_append_congr hfront fun a => readOptions_directory hs hne a back

def dashedDirectory : List Text := ["-b".toList, "--".toList, "in.md".toList]

theorem parse_spelled_out_dashedDirectory : Open dashedDirectory ∧
    (parse (dashedDirectory ++ ["-dmfmine".toList]) =
        parse (dashedDirectory ++ ["-d".toList, "-m".toList, "-fmine".toList]) ∧
      parse (dashedDirectory ++ ["-dmfmine".toList]) =
        .ok { settings := .file "mine".toList, baseDir := some "--".toList, matchesOnly := true,
              debug := true, input := .file "in.md".toList }) ∧
    parse (dashedDirectory ++ ["-mb".toList, "-d".toList]) = parse (dashedDirectory ++ ["-mb-d".toList]) := by
  have hopen : Open dashedDirectory := .directory rfl ⟨[], rfl, by simp⟩ (.file rfl .nil)
  obtain ⟨hspelled, hdirectory⟩ := parse_spelled_out hopen []
  have hswitches : ∀ c ∈ ['d', 'm'], c = 'd' ∨ c = 'm' := by simp
  have hcluster := hspelled ['d', 'm'] "fmine".toList hswitches (by decide) (by decide)
  exact ⟨hopen, ⟨hcluster, rfl⟩, hdirectory ['m'] "-d".toList (by simp) (by decide)⟩

end Stencil.Arguments
