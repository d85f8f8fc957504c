import Stencil.Proofs.Tag.Body
import Stencil.Proofs.Tag.Stretch
import Stencil.Proofs.Tag.Tiling

/-! # Malformed content

A definition that is not marked is raw if the scan of its body failed in its place, before the closing tag
and the rest of the text. That is so if its content by itself is no template, or if its body ends with a
brace (`raw_iff_malformed`). It takes that the blocks in the content are read by themselves (`Firm`): a block
that is closed by the first closing tag that the text shows may be closed elsewhere when other text stands
behind it. -/
set_option autoImplicit false
namespace Stencil

/-! ## Blocks -/

/-- An at sign stands before the name in the opening tag. -/
def DefinitionSource.isMarked (s : DefinitionSource) : Bool :=
  (s.opening.tail.dropWhile isLineBlank).head? == some '@'

theorem Reader.isName_of_opening {c mid : Cursor} {o : Opening}
    (h : opening.run c = .ok (o, mid)) : IsName o.name := by
  obtain ⟨_, c₁, -, h⟩ := exists_of_run_bind h
  obtain ⟨_, c₂, -, h⟩ := exists_of_run_bind h
  obtain ⟨raw, c₃, -, h⟩ := exists_of_run_bind h
  obtain ⟨_, c₄, -, h⟩ := exists_of_run_bind h
  obtain ⟨n, c₅, h₅, h⟩ := exists_of_run_bind h
  obtain ⟨_, c₆, -, h⟩ := exists_of_run_bind h
  obtain ⟨f, c₇, -, h⟩ := exists_of_run_bind h
  obtain ⟨rfl, -⟩ := Prod.mk.inj (Except.ok.inj h)
  exact isName_of_name h₅

theorem Reader.raw_of_opening {c mid : Cursor} {o : Opening} (h : opening.run c = .ok (o, mid)) :
    o.raw = ((c.rest.tail.dropWhile isLineBlank).head? == some '@') := by
  obtain ⟨_, c₁, h₁, h⟩ := exists_of_run_bind h
  obtain ⟨_, c₂, h₂, h⟩ := exists_of_run_bind h
  obtain ⟨raw, c₃, h₃, h⟩ := exists_of_run_bind h
  obtain ⟨_, c₄, -, h⟩ := exists_of_run_bind h
  obtain ⟨n, c₅, -, h⟩ := exists_of_run_bind h
  obtain ⟨_, c₆, -, h⟩ := exists_of_run_bind h
  obtain ⟨f, c₇, -, h⟩ := exists_of_run_bind h
  obtain ⟨rfl, -⟩ := Prod.mk.inj (Except.ok.inj h)
  obtain ⟨-, rfl⟩ := Prod.mk.inj (Except.ok.inj h₁)
  have hblanks : c₂.rest = c.rest.tail.dropWhile isLineBlank := by
    obtain ⟨-, rfl⟩ := Prod.mk.inj (Except.ok.inj h₂)
    refine (rest_advance_takeWhile isLineBlank (c.advance 1)).trans ?_
    simp [Cursor.advance]
  rw [← hblanks]
  have heat : (if c₂.rest.head? = some '@' then Except.ok (true, c₂.advance 1)
      else .ok (false, c₂)) = (.ok (raw, c₃) : Except SyntaxError (Bool × Cursor)) := h₃
  by_cases hhead : c₂.rest.head? = some '@'
  · rw [if_pos hhead] at heat
    obtain ⟨rfl, -⟩ := Prod.mk.inj (Except.ok.inj heat)
    simp [hhead]
  · rw [if_neg hhead] at heat
    obtain ⟨rfl, -⟩ := Prod.mk.inj (Except.ok.inj heat)
    simpa using hhead

theorem isMarked_of_opening {c mid : Cursor} {o : Opening} {source : DefinitionSource}
    (hlead : lead c.rest = .opening) (h : Reader.opening.run c = .ok (o, mid))
    (hopening : source.opening = c.upto mid) : source.isMarked = o.raw := by
  obtain ⟨y, hy⟩ := upto_of_opening h
  have hrest := (Reader.advances_opening.reaches h).upto_append
  obtain ⟨u, hu⟩ := exists_cons_of_lead (t := c.rest) (by rw [hlead]; decide)
  rw [Reader.raw_of_opening h, DefinitionSource.isMarked, hopening, ← hrest, hy]
  cases y with
  | nil =>
      rw [hy, hu] at hrest
      exact absurd (List.cons.inj hrest).1 (by decide)
  | cons d y =>
      have hbrace : '}' ∈ y ++ ['}'] := by simp
      obtain ⟨heq, hmem⟩ := Reader.dropWhile_append_of_mem (p := isLineBlank) (by decide) hbrace mid.rest
      obtain ⟨e, v, hv⟩ := List.exists_cons_of_ne_nil (List.ne_nil_of_mem hmem)
      simp only [List.cons_append, List.tail_cons]
      rw [heq, hv]
      rfl

/-- A block is raw if it is marked, or if its content had to be taken without being understood. -/
theorem exists_of_block {c next : Cursor} {d : Definition} {source : DefinitionSource} {body : Text}
    (hlead : lead c.rest = .opening) (h : Node.definition c = .ok (d, source, next))
    (hbody : source.body = some body) : ∃ (name : Text) (k : Closing) (taken : Bool),
      Reader.IsName name ∧ d.raw = (source.isMarked || taken) ∧ d.content = trimLineBreaks body ∧
      (source.closing ++ next.rest).length = k.left ∧
      settleClosing name (body ++ (source.closing ++ next.rest)) (scan (some name)
        ⟨c.offset + Text.size source.opening, body ++ (source.closing ++ next.rest)⟩) =
          .ok (k, taken) := by
  obtain ⟨o, mid, ps, k, taken, z, r, ho, -, hk, hleft, hraw, -, hcontent, hopening, hclosing, hrest,
    hbreak⟩ := closing_of_definition h hbody
  have hbehind : source.closing ++ next.rest = '{' :: (z ++ '}' :: r) := by
    rw [hclosing, List.cons_append, List.append_assoc, List.cons_append, ← hbreak]
  have hmid : mid = ⟨c.offset + Text.size source.opening, body ++ (source.closing ++ next.rest)⟩ := by
    rw [hopening]
    exact (Reader.advances_opening.reaches ho).eq_of_append
      (Reader.advances_opening.reaches ho).upto_append.symm (by rw [hrest, hbehind])
  rw [hmid] at hk
  exact ⟨o.name, k, taken, Reader.isName_of_opening ho,
    by rw [hraw, isMarked_of_opening hlead ho hopening], hcontent, by rw [hbehind, hleft], hk⟩

/-! ## Raw definitions -/

/-- Every block that is reached from the position is read by itself, whatever comes behind it. -/
def Firm (c : Cursor) : Prop :=
  ∀ d source, .define d source ∈ Node.reached c → source.body ≠ none → Settled d source

theorem Firm.exists_reads {c last : Cursor} {ns : List Node} (h : Firm c)
    (hstretch : Stretch c last ns) : ∃ t, c.rest = t ++ last.rest ∧ Reads last.rest t ns :=
  reads_of_stretch hstretch fun d source hd => h d source (hstretch.define_mem_reached hd)

theorem Firm.exists_reads_of_parse {t : Text} {ns : List Node} (h : Firm (Cursor.start t))
    (ht : parse t = .ok ns) : Reads [] t ns := by
  obtain ⟨last, hlast, hstretch⟩ := (located_of_parse ht).stretch
  obtain ⟨u, hu, hreads⟩ := h.exists_reads hstretch
  rw [hlast] at hu hreads
  obtain rfl : t = u := by rw [← List.append_nil u, ← hu]; rfl
  exact hreads

/-- Content that a scan went over up to a closing tag is a template by itself. -/
theorem reads_of_scan {name body w : Text} {o : Nat} {k : Closing} (hfirm : Firm ⟨o, body ++ w⟩)
    (hleft : w.length = k.left) (h : scan (some name) ⟨o, body ++ w⟩ = .ok k) :
    body.getLast? ≠ some '{' ∧ ∃ ns, Reads [] (trimLineBreaks body) ns := by
  obtain ⟨last, ns, hstretch, -, hend⟩ := exists_stretch_of_scan h
  obtain ⟨hlead, hlength⟩ := hend nofun
  obtain ⟨t, ht, hreads⟩ := hfirm.exists_reads hstretch
  obtain ⟨rfl, rfl⟩ := List.append_inj' ht (hleft.trans hlength.symm)
  have hlast := getLast?_ne_of_reads hlead hreads
  have halone := reads_of_before_brace (head?_of_closing hlead) hreads hlast
  exact ⟨hlast, (exists_reads_trimLineBreaks body).2 ⟨ns, halone⟩⟩

/-- A scan of content that is a template by itself ends at the closing tag behind it, unless a brace stands
before that. -/
theorem scan_of_reads_trimLineBreaks {name body z r : Text} {ns : List Node}
    (hclosing : ClosingText z name) (hreads : Reads [] (trimLineBreaks body) ns)
    (hlast : body.getLast? ≠ some '{') (o : Nat) :
    ∃ k, scan (some name) ⟨o, body ++ (z ++ r)⟩ = .ok k := by
  obtain ⟨ms, hms⟩ := (exists_reads_trimLineBreaks body).1 ⟨ns, hreads⟩
  have hlead := hclosing.1 r
  obtain ⟨slash, hslash⟩ := Reader.exists_of_closingName (hclosing.2 r (o + Text.size body))
  rw [scan_of_reads (reads_before_brace hms (head?_of_closing hlead) hlast),
    scan_closing hlead hslash]
  exact ⟨_, rfl⟩

theorem raw_iff_of_block {c next : Cursor} {d : Definition} {source : DefinitionSource} {body : Text}
    (hlead : lead c.rest = .opening) (hdef : Node.definition c = .ok (d, source, next))
    (hbody : source.body = some body) (hmark : source.isMarked = false)
    (hplace : Firm ⟨c.offset + Text.size source.opening, body ++ (source.closing ++ next.rest)⟩)
    (halone : Firm (Cursor.start d.content)) :
    d.raw = true ↔ (∃ e, parse d.content = .error e) ∨ body.getLast? = some '{' := by
  obtain ⟨name, k, taken, hn, hraw, hcontent, hleft, hk⟩ := exists_of_block hlead hdef hbody
  rw [hmark, Bool.false_or] at hraw
  unfold settleClosing at hk
  split at hk
  next j hscan =>
    obtain ⟨rfl, rfl⟩ := Prod.mk.inj (Except.ok.inj hk)
    obtain ⟨hlast, ns, hns⟩ := reads_of_scan hplace hleft hscan
    rw [hraw, hcontent, parse_of_reads hns]
    simp [hlast]
  next e hscan =>
    split at hk
    next j hj =>
      obtain ⟨rfl, rfl⟩ := Prod.mk.inj (Except.ok.inj hk)
      refine iff_of_true hraw ?_
      by_contra hnot
      obtain ⟨hparse, hlast⟩ := not_or.1 hnot
      cases ht : parse d.content with
      | error f => exact hparse ⟨f, ht⟩
      | ok ns =>
          have hreads := halone.exists_reads_of_parse ht
          rw [hcontent] at hreads
          obtain ⟨y, z, r, hsplit, hsame, hclosing⟩ := closingText_of_findClosing? hn hj
          obtain ⟨rfl, hzr⟩ := List.append_inj' hsplit (hleft.trans hsame.symm)
          obtain ⟨l, hl⟩ := scan_of_reads_trimLineBreaks hclosing hreads hlast (r := r)
            (c.offset + Text.size source.opening)
          rw [← hzr, hscan] at hl
          cases hl
    next => cases hk
  next => cases hk

/-- A single tag is raw if its value is no template. Numbers are templates. -/
theorem raw_iff_of_single {c next : Cursor} {d : Definition} {source : DefinitionSource}
    (hlead : lead c.rest = .opening) (hdef : Node.definition c = .ok (d, source, next))
    (hbody : source.body = none) (hmark : source.isMarked = false) :
    d.raw = true ↔ ∃ e, parse d.content = .error e := by
  obtain ⟨o, mid, v, ho, -, rfl, hopening, -, -⟩ := single_of_definition hdef hbody
  rw [isMarked_of_opening hlead ho hopening] at hmark
  have hraw : (Node.singleDefinition o v).raw = true ↔ isTemplate v.display = false := by
    cases v with
    | text t => simp [Node.singleDefinition, hmark, Value.display]
    | number x =>
        have hplain : '{' ∉ formatNumber x := not_mem_formatNumber x ⟨by decide, by decide, by decide⟩
        obtain ⟨ns, hns, -⟩ := exists_reads_append (.nil (r := [])) hplain
        rw [List.append_nil] at hns
        have htemplate : isTemplate (formatNumber x) = true :=
          (isTemplate_iff _).2 ⟨ns, parse_of_reads hns⟩
        simp [Node.singleDefinition, hmark, Value.display, htemplate]
  rw [hraw, ← Bool.not_eq_true, isTemplate_iff]
  show _ ↔ ∃ e, parse v.display = .error e
  cases parse v.display <;> simp

/-- A definition that is not marked is raw if its content by itself is no template, or if its body ends with a
brace, which begins a slot together with the brace of the closing tag. The blocks in its content have to be
read by themselves, both in their place and with the content alone. -/
theorem raw_iff_malformed (t : Text) (as bs : List Node) (d : Definition) (source : DefinitionSource)
    (h : parse t = .ok (as ++ .define d source :: bs)) (hmark : source.isMarked = false)
    (hfirm : ∀ body ∈ source.body, Firm (Cursor.start d.content) ∧
      Firm ⟨Text.size (as.flatMap Node.source ++ source.opening),
        body ++ (source.closing ++ bs.flatMap Node.source)⟩) :
    d.raw = true ↔ (∃ e, parse d.content = .error e) ∨
      ∃ body ∈ source.body, body.getLast? = some '{' := by
  have hsuffix := (located_of_parse h).suffix (n := .define d source) rfl rfl
  obtain ⟨hlead, hdef⟩ := hsuffix.define_inv
  cases hbody : source.body with
  | none => simpa using raw_iff_of_single hlead hdef hbody hmark
  | some body =>
      obtain ⟨halone, hplace⟩ := hfirm body hbody
      rw [Text.size_append, ← Nat.zero_add (Text.size _)] at hplace
      simpa using raw_iff_of_block hlead hdef hbody hmark hplace halone

def isFirm : Nat → Cursor → Bool
  | 0, _ => false
  | depth + 1, c => (Node.reached c).all fun
    | .text _ => true
    | .slot _ _ => true
    | .define d source =>
      match source.body with
      | none => true
      | some body => !d.raw && isTemplate body && isFirm depth (Cursor.start body)

theorem firm_of_isFirm : ∀ (depth : Nat) {c : Cursor}, isFirm depth c = true → Firm c := by
  intro depth
  induction depth with
  | zero => intro c h; cases h
  | succ depth ih =>
      intro c h d source hd hne
      obtain ⟨body, hbody⟩ := Option.ne_none_iff_exists'.1 hne
      have hblock := List.all_eq_true.1 h _ hd
      simp only [hbody, Bool.and_eq_true, Bool.not_eq_true'] at hblock
      obtain ⟨⟨hraw, htemplate⟩, hdeep⟩ := hblock
      obtain ⟨ns, hns⟩ := (isTemplate_iff body).1 htemplate
      obtain ⟨c₁, next, hlead, hdef⟩ := Node.exists_of_mem_reached c hd
      exact settled_of_reads hlead hdef hbody hraw ((ih hdeep).exists_reads_of_parse hns)

def brokenText : Text := bracketed "x [a]\n[b]1[/b]\n[[-]][/a]\ny"

def broken : Definition :=
  { name := ['a'], content := bracketed "[b]1[/b]\n[[-]]", raw := true }

def brokenSource : DefinitionSource :=
  ⟨bracketed "[a]", some (bracketed "\n[b]1[/b]\n[[-]]"), bracketed "[/a]\n"⟩

theorem raw_iff_brokenText :
    parse brokenText = .ok ([.text "x ".toList] ++ .define broken brokenSource :: [.text ['y']]) ∧
    brokenSource.isMarked = false ∧ (broken.raw = true ↔
      (∃ e, parse broken.content = .error e) ∨ ∃ body ∈ brokenSource.body, body.getLast? = some '{') := by
  have hparse : parse brokenText =
      .ok ([.text "x ".toList] ++ .define broken brokenSource :: [.text ['y']]) := by decide +kernel
  have hmark : brokenSource.isMarked = false := by decide +kernel
  refine ⟨hparse, hmark, raw_iff_malformed brokenText _ _ broken brokenSource hparse hmark ?_⟩
  intro body hbody
  obtain rfl := Option.some.inj hbody
  exact ⟨firm_of_isFirm 2 (by decide +kernel), firm_of_isFirm 2 (by decide +kernel)⟩

/-- The brace at the end of the content is text, but before the closing tag it begins a slot. -/
def openText : Text := bracketed "[d]x[[/d]"

def openBrace : Definition := { name := ['d'], content := bracketed "x[", raw := true }

/-- The inner block of `d` is broken, and closed by a closing tag that stands in a literal of the content.
Alone, the content has another first closing tag than in its place. -/
def overlapText : Text := bracketed "[d][e][d][[f(\"[/d][/x][/e]\")]][/d]"

def overlap : Definition :=
  { name := ['d'], content := bracketed "[e][d][[f(\"[/d][/x][/e]\")]]" }

/-- A raw definition with content that is a template, and one that is not raw with content that is none. -/
theorem raw_differs :
    (parse openText = .ok [.define openBrace ⟨bracketed "[d]", some openBrace.content, bracketed "[/d]"⟩] ∧
      openBrace.raw = true ∧ parse openBrace.content = .ok [.text openBrace.content]) ∧
    parse overlapText =
        .ok [.define overlap ⟨bracketed "[d]", some overlap.content, bracketed "[/d]"⟩] ∧
      overlap.raw = false ∧ (parse overlap.content).toOption = none := by
  decide +kernel

end Stencil
