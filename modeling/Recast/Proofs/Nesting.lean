import Recast.Lexis.Mark
import Mathlib.Data.List.Basic

/-!
# The nesting of a text

A reader of finished texts that knows brackets and quotes and nothing else (`Nesting.next?`). What
stands between quotes is opaque to it and is noted as one literal. `Balanced` is the grammar of the
texts that open and close their brackets in order, with a line break after each brace that opens:
the reader passes them (`Balanced.read?`), and on its way nothing is closed that was open before
(`Balanced.inside`). A text is cut into definitions at the line breaks at which nothing is open
(`Nesting.definitions`). Texts that are open from their first line to their last bracket
(`Standalone`) are the definitions of their concatenation (`Standalone.definitions_flatten`).
-/

namespace Recast

/-! ## Brackets and quotes -/

namespace Bracket

def left : Bracket → Char
  | .paren => '('
  | .square => '['
  | .brace => '{'

def right : Bracket → Char
  | .paren => ')'
  | .square => ']'
  | .brace => '}'

/-- The bracket that a character opens. -/
def ofLeft? : Char → Option Bracket
  | '(' => some .paren
  | '[' => some .square
  | '{' => some .brace
  | _ => none

/-- The bracket that a character closes. -/
def ofRight? : Char → Option Bracket
  | ')' => some .paren
  | ']' => some .square
  | '}' => some .brace
  | _ => none

@[simp] theorem ofLeft?_left (b : Bracket) : ofLeft? b.left = some b := by cases b <;> rfl

@[simp] theorem ofLeft?_right (b : Bracket) : ofLeft? b.right = none := by cases b <;> rfl

@[simp] theorem ofRight?_right (b : Bracket) : ofRight? b.right = some b := by cases b <;> rfl

end Bracket

/-- A character that opens a literal and closes it. -/
def isQuote (c : Char) : Bool := c == '"' || c == '\'' || c == '`'

theorem isQuote_iff {c : Char} : isQuote c = true ↔ c = '"' ∨ c = '\'' ∨ c = '`' := by
  simp [isQuote, or_assoc]

/-- A character that is neither a bracket nor a quote. -/
def isPlain (c : Char) : Bool :=
  !isQuote c && (Bracket.ofLeft? c).isNone && (Bracket.ofRight? c).isNone

theorem isQuote_left (b : Bracket) : isQuote b.left = false := by cases b <;> rfl

theorem isQuote_right (b : Bracket) : isQuote b.right = false := by cases b <;> rfl

/-! ## The reader -/

/-- Where a reader of a text stands: in code, or in a literal, of which it knows the quote and the
characters so far. -/
inductive Zone where
  | code
  | literal (quote : Char) (taken : List Char)
  /-- Right after a `\`. -/
  | escape (quote : Char) (taken : List Char)
  deriving Repr, DecidableEq

/-- What a reader of brackets and quotes knows: where it stands, the brackets that are open, the
innermost first, and the literals that it has passed. -/
structure Nesting where
  zone : Zone
  opened : List Bracket
  passed : List String
  deriving Repr, DecidableEq

namespace Nesting

def start : Nesting := ⟨.code, [], []⟩

/-- How many braces are open. -/
def depth (r : Nesting) : Nat := r.opened.count .brace

/-- Neither a literal nor a bracket is open. -/
def Closed (r : Nesting) : Prop := r.zone = .code ∧ r.opened = []

instance (r : Nesting) : Decidable r.Closed := inferInstanceAs (Decidable (_ ∧ _))

/-- Reads one character. It fails at a bracket that closes another one than the innermost that is
open. A literal ends at its quote, from which `\` protects except between back quotes. -/
def next? (r : Nesting) (c : Char) : Option Nesting :=
  match r.zone with
  | .code =>
    if isQuote c then some { r with zone := .literal c [c] }
    else match Bracket.ofLeft? c, Bracket.ofRight? c with
      | some b, _ => some { r with opened := b :: r.opened }
      | none, some b =>
        if r.opened.head? = some b then some { r with opened := r.opened.tail } else none
      | none, none => some r
  | .literal q taken =>
    if c = q then
      some { r with zone := .code, passed := r.passed ++ [String.ofList (taken ++ [c])] }
    else if c = '\\' ∧ q ≠ '`' then some { r with zone := .escape q (taken ++ [c]) }
    else some { r with zone := .literal q (taken ++ [c]) }
  | .escape q taken => some { r with zone := .literal q (taken ++ [c]) }

/-- Reads a text. -/
def read? (r : Nesting) (cs : List Char) : Option Nesting := cs.foldlM next? r

@[simp] theorem read?_nil (r : Nesting) : r.read? [] = some r := rfl

theorem read?_cons (r : Nesting) (c : Char) (cs : List Char) :
    r.read? (c :: cs) = (r.next? c).bind fun s => s.read? cs :=
  List.foldlM_cons

theorem read?_append (r : Nesting) (cs ds : List Char) :
    r.read? (cs ++ ds) = (r.read? cs).bind fun s => s.read? ds :=
  List.foldlM_append

variable {ns : List Bracket} {ps : List String}

theorem next?_quote {q : Char} (hq : isQuote q = true) :
    next? ⟨.code, ns, ps⟩ q = some ⟨.literal q [q], ns, ps⟩ := by
  simp [next?, hq]

theorem next?_left (b : Bracket) : next? ⟨.code, ns, ps⟩ b.left = some ⟨.code, b :: ns, ps⟩ := by
  simp [next?, isQuote_left]

theorem next?_right (b : Bracket) : next? ⟨.code, b :: ns, ps⟩ b.right = some ⟨.code, ns, ps⟩ := by
  simp [next?, isQuote_right]

theorem next?_plain {c : Char} (hc : isPlain c = true) :
    next? ⟨.code, ns, ps⟩ c = some ⟨.code, ns, ps⟩ := by
  simp only [isPlain, Bool.and_eq_true, Bool.not_eq_true', Option.isNone_iff_eq_none] at hc
  simp [next?, hc]

section Literal

variable {q c : Char} {taken : List Char}

theorem next?_close :
    next? ⟨.literal q taken, ns, ps⟩ q
      = some ⟨.code, ns, ps ++ [String.ofList (taken ++ [q])]⟩ := by
  simp [next?]

theorem next?_inner (hc : c ≠ q) (hb : c = '\\' → q = '`') :
    next? ⟨.literal q taken, ns, ps⟩ c = some ⟨.literal q (taken ++ [c]), ns, ps⟩ := by
  have hesc : ¬ (c = '\\' ∧ q ≠ '`') := fun ⟨he, hne⟩ => hne (hb he)
  simp [next?, hc, hesc]

theorem next?_backslash (hq : isQuote q = true) (hraw : q ≠ '`') :
    next? ⟨.literal q taken, ns, ps⟩ '\\' = some ⟨.escape q (taken ++ ['\\']), ns, ps⟩ := by
  have hne : '\\' ≠ q := by
    rintro rfl
    cases hq
  simp [next?, hne, hraw]

theorem next?_escaped :
    next? ⟨.escape q taken, ns, ps⟩ c = some ⟨.literal q (taken ++ [c]), ns, ps⟩ :=
  rfl

end Literal

end Nesting

open Nesting (start)

/-! ## Balanced texts -/

/-- What follows the quote that opens a literal, its closing quote included. -/
inductive Quoted (q : Char) : List Char → Prop
  | close : Quoted q [q]
  | char {c : Char} {cs : List Char} (hc : c ≠ q) (hb : c = '\\' → q = '`') (h : Quoted q cs) :
      Quoted q (c :: cs)
  | escape {c : Char} {cs : List Char} (hq : q ≠ '`') (h : Quoted q cs) :
      Quoted q ('\\' :: c :: cs)

/-- A text whose brackets are closed in order, with a line break after each brace that opens, and
the literals between quotes that stand in it. -/
inductive Balanced : List String → List Char → Prop
  | nil : Balanced [] []
  | plain {c : Char} (hc : isPlain c = true) : Balanced [] [c]
  | literal {q : Char} {cs : List Char} (hq : isQuote q = true) (h : Quoted q cs) :
      Balanced [String.ofList (q :: cs)] (q :: cs)
  | append {ls ms : List String} {cs ds : List Char} (h : Balanced ls cs) (k : Balanced ms ds) :
      Balanced (ls ++ ms) (cs ++ ds)
  | group {ls : List String} {cs : List Char} (b : Bracket) (h : Balanced ls cs)
      (hb : b = .brace → cs.head? = some '\n') : Balanced ls (b.left :: (cs ++ [b.right]))

theorem Balanced.of_plain {cs : List Char} (h : ∀ c ∈ cs, isPlain c = true) : Balanced [] cs := by
  induction cs with
  | nil => exact .nil
  | cons c cs ih =>
    obtain ⟨hc, hcs⟩ := List.forall_mem_cons.1 h
    exact (Balanced.plain hc).append (ih hcs)

namespace Quoted

variable {q : Char} {cs taken : List Char} {ns : List Bracket} {ps : List String}

theorem append {ds : List Char} (h : ∀ c ∈ cs, c ≠ q ∧ c ≠ '\\') (k : Quoted q ds) :
    Quoted q (cs ++ ds) := by
  induction cs with
  | nil => exact k
  | cons c cs ih =>
    obtain ⟨⟨hq, hb⟩, hcs⟩ := List.forall_mem_cons.1 h
    exact .char hq (fun he => absurd he hb) (ih hcs)

/-- A literal is passed up to its end. -/
theorem read? (h : Quoted q cs) (hq : isQuote q = true) :
    Nesting.read? ⟨.literal q taken, ns, ps⟩ cs
      = some ⟨.code, ns, ps ++ [String.ofList (taken ++ cs)]⟩ := by
  induction h generalizing taken with
  | close => rw [Nesting.read?_cons, Nesting.next?_close, Option.bind_some, Nesting.read?_nil]
  | char hc hb _ ih =>
    rw [Nesting.read?_cons, Nesting.next?_inner hc hb, Option.bind_some, ih, List.append_assoc]
    rfl
  | escape hraw _ ih =>
    rw [Nesting.read?_cons, Nesting.next?_backslash hq hraw, Option.bind_some, Nesting.read?_cons,
      Nesting.next?_escaped, Option.bind_some, ih]
    simp

/-- Before its end the reader is in the literal, and the brackets that are open stay as they are. -/
theorem inside (h : Quoted q cs) (hq : isQuote q = true) {before after : List Char} {c : Char}
    (hs : cs = before ++ c :: after) {r : Nesting}
    (hr : Nesting.read? ⟨.literal q taken, ns, ps⟩ before = some r) :
    r.zone ≠ .code ∧ r.opened = ns := by
  induction h generalizing taken before with
  | close =>
    cases before with
    | nil =>
      cases hr
      exact ⟨Zone.noConfusion, rfl⟩
    | cons d before => simp at hs
  | char hc hb _ ih =>
    cases before with
    | nil =>
      cases hr
      exact ⟨Zone.noConfusion, rfl⟩
    | cons d before =>
      rw [List.cons_append, List.cons.injEq] at hs
      obtain ⟨rfl, hs⟩ := hs
      rw [Nesting.read?_cons, Nesting.next?_inner hc hb] at hr
      exact ih hs hr
  | escape hraw _ ih =>
    rcases before with _ | ⟨d, before⟩
    · cases hr
      exact ⟨Zone.noConfusion, rfl⟩
    · rw [List.cons_append, List.cons.injEq] at hs
      obtain ⟨rfl, hs⟩ := hs
      rw [Nesting.read?_cons, Nesting.next?_backslash hq hraw, Option.bind_some] at hr
      cases before with
      | nil =>
        cases hr
        exact ⟨Zone.noConfusion, rfl⟩
      | cons d before =>
        rw [List.cons_append, List.cons.injEq] at hs
        obtain ⟨rfl, hs⟩ := hs
        rw [Nesting.read?_cons, Nesting.next?_escaped, Option.bind_some] at hr
        exact ih hs hr

end Quoted

/-- What is known after a part of a text: what was open before is still open, and a brace that comes
next and opens is followed by a line break. -/
structure Nesting.Within (ns : List Bracket) (r : Nesting) (after : List Char) : Prop where
  opened : ns <:+ r.opened
  breaks : ∀ rest, after = '{' :: rest → r.zone = .code → rest.head? = some '\n'

namespace Nesting.Within

variable {ns : List Bracket} {r : Nesting} {after : List Char}

/-- Before anything but a brace only the brackets matter. -/
theorem of_head (h : ns <:+ r.opened) (ha : after.head? ≠ some '{') : r.Within ns after :=
  ⟨h, fun rest hr => absurd (by rw [hr, List.head?_cons]) ha⟩

/-- More text may follow. -/
theorem more {c : Char} (h : r.Within ns (c :: after)) (rest : List Char) :
    r.Within ns (c :: (after ++ rest)) := by
  refine ⟨h.opened, fun rest' he hz => ?_⟩
  obtain ⟨rfl, rfl⟩ := List.cons.inj he
  have hhead := h.breaks after rfl hz
  rw [List.head?_append, hhead, Option.some_or]

/-- Some of the brackets may be left out of account. -/
theorem mono {ms : List Bracket} (h : r.Within ns after) (hm : ms <:+ ns) : r.Within ms after :=
  ⟨hm.trans h.opened, h.breaks⟩

end Nesting.Within

namespace Balanced

variable {ls : List String} {cs before after : List Char} {ns : List Bracket} {ps : List String}

/-- A balanced text is passed, and the literals in it are noted. -/
theorem read? (h : Balanced ls cs) :
    Nesting.read? ⟨.code, ns, ps⟩ cs = some ⟨.code, ns, ps ++ ls⟩ := by
  induction h generalizing ns ps with
  | nil => rw [Nesting.read?_nil, List.append_nil]
  | plain hc =>
    rw [Nesting.read?_cons, Nesting.next?_plain hc, Option.bind_some, Nesting.read?_nil,
      List.append_nil]
  | literal hq h =>
    rw [Nesting.read?_cons, Nesting.next?_quote hq, Option.bind_some, h.read? hq,
      List.singleton_append]
  | append _ _ ih ik =>
    rw [Nesting.read?_append, ih, Option.bind_some, ik, List.append_assoc]
  | group b _ _ ih =>
    rw [Nesting.read?_cons, Nesting.next?_left, Option.bind_some, Nesting.read?_append, ih,
      Option.bind_some, Nesting.read?_cons, Nesting.next?_right, Option.bind_some,
      Nesting.read?_nil]

/-- A bracket may only close the innermost one that is open. -/
example : start.read? "(\x7b)\x7d".toList = none := by decide

/-- What is known along two texts of which the first is balanced, if it is known along each. -/
theorem within_append {ms : List Bracket} {ds : List Char} (h : Balanced ls cs) (hm : ms <:+ ns)
    (hleft : ∀ {before after : List Char} {r : Nesting}, cs = before ++ after →
      Nesting.read? ⟨.code, ns, ps⟩ before = some r → r.Within ns after)
    (hright : ∀ {before after : List Char} {r : Nesting}, ds = before ++ after →
      Nesting.read? ⟨.code, ns, ps ++ ls⟩ before = some r → r.Within ms after)
    (hs : cs ++ ds = before ++ after) {r : Nesting}
    (hr : Nesting.read? ⟨.code, ns, ps⟩ before = some r) : r.Within ms after := by
  rcases List.append_eq_append_iff.1 hs with ⟨rest, rfl, hcut⟩ | ⟨rest, hcut, rfl⟩
  · rw [Nesting.read?_append, h.read?, Option.bind_some] at hr
    exact hright hcut hr
  · cases rest with
    | nil =>
      rw [List.append_nil] at hcut
      rw [← hcut, h.read?] at hr
      cases hr
      exact hright (List.nil_append _).symm (Nesting.read?_nil _)
    | cons c rest => exact ((hleft hcut hr).more ds).mono hm

/-- On the way through a balanced text nothing is closed that was open before, and each brace that
opens is followed by a line break. -/
theorem within (h : Balanced ls cs) (hs : cs = before ++ after) {r : Nesting}
    (hr : Nesting.read? ⟨.code, ns, ps⟩ before = some r) : r.Within ns after := by
  induction h generalizing ns ps before after r with
  | nil =>
    obtain ⟨rfl, rfl⟩ := List.append_eq_nil_iff.1 hs.symm
    cases hr
    exact .of_head List.suffix_rfl (by simp)
  | @plain c hc =>
    rcases List.singleton_eq_append_iff.1 hs with ⟨rfl, rfl⟩ | ⟨rfl, rfl⟩
    · cases hr
      refine .of_head List.suffix_rfl ?_
      rintro ⟨⟩
      cases hc
    · rw [Nesting.read?_cons, Nesting.next?_plain hc] at hr
      cases hr
      exact .of_head List.suffix_rfl (by simp)
  | @literal q cs hq h =>
    cases before with
    | nil =>
      cases hr
      subst hs
      refine .of_head List.suffix_rfl ?_
      rintro ⟨⟩
      cases hq
    | cons d before =>
      obtain ⟨rfl, hcut⟩ := List.cons.inj hs
      rw [Nesting.read?_cons, Nesting.next?_quote hq, Option.bind_some] at hr
      cases after with
      | nil =>
        obtain rfl : cs = before := hcut.trans (List.append_nil _)
        rw [h.read? hq] at hr
        cases hr
        exact .of_head List.suffix_rfl (by simp)
      | cons c after =>
        obtain ⟨hz, ho⟩ := h.inside hq hcut hr
        exact ⟨ho ▸ List.suffix_rfl, fun _ _ hcode => absurd hcode hz⟩
  | append h _ ih ik =>
    exact h.within_append List.suffix_rfl (fun hs hr => ih hs hr) (fun hs hr => ik hs hr) hs hr
  | @group ls cs b h hb ih =>
    cases before with
    | nil =>
      cases hr
      subst hs
      refine ⟨List.suffix_rfl, fun rest he _ => ?_⟩
      obtain ⟨hbrace, rfl⟩ := List.cons.inj he
      have hbrace : b = .brace := by cases b <;> first | rfl | cases hbrace
      rw [List.head?_append, hb hbrace, Option.some_or]
    | cons d before =>
      obtain ⟨rfl, hcut⟩ := List.cons.inj hs
      rw [Nesting.read?_cons, Nesting.next?_left, Option.bind_some] at hr
      refine h.within_append (List.suffix_cons b ns) (fun hs hr => ih hs hr)
        (fun hclosing hr => ?_) hcut hr
      rcases List.singleton_eq_append_iff.1 hclosing with ⟨rfl, rfl⟩ | ⟨rfl, rfl⟩
      · cases hr
        exact .of_head (List.suffix_cons b ns) (by cases b <;> decide)
      · rw [Nesting.read?_cons, Nesting.next?_right] at hr
        cases hr
        exact .of_head List.suffix_rfl (by simp)

end Balanced

/-! ## Definitions -/

namespace Nesting

/-- A character put before the first of several texts. -/
def prepend (c : Char) : List (List Char) → List (List Char)
  | [] => [[c]]
  | cs :: css => (c :: cs) :: css

/-- The definitions of a text: it is cut after each line at whose end nothing is open. -/
def definitions (r : Nesting) : List Char → List (List Char)
  | [] => []
  | c :: cs =>
    match r.next? c with
    | none => [c :: cs]
    | some s =>
      if c = '\n' ∧ s.Closed then [c] :: definitions start cs else prepend c (definitions s cs)

/-- A text that ends with a line at whose end nothing is open, and that has no such line before, is
one definition. -/
theorem definitions_append {r s : Nesting} {cs : List Char} (hr : r.read? cs = some s)
    (hs : s.Closed) (hlast : cs.getLast? = some '\n')
    (hopen : ∀ before s, before <+: cs → before ≠ cs → before.getLast? = some '\n' →
      r.read? before = some s → ¬ s.Closed) (rest : List Char) :
    r.definitions (cs ++ rest) = cs :: start.definitions rest := by
  induction cs generalizing r with
  | nil => cases hlast
  | cons c cs ih =>
    rw [read?_cons] at hr
    obtain ⟨t, ht, hr⟩ := Option.bind_eq_some_iff.1 hr
    rw [List.cons_append, definitions, ht]
    dsimp only
    cases cs with
    | nil =>
      cases hr
      cases hlast
      rw [if_pos ⟨rfl, hs⟩, List.nil_append]
    | cons d cs =>
      rw [if_neg]
      · rw [List.getLast?_cons_cons] at hlast
        rw [ih hr hlast, prepend]
        intro before u hb hne hl hu
        refine hopen (c :: before) u ?_ (by simpa using hne) ?_ ?_
        · simpa using hb
        · rw [List.getLast?_cons, hl, Option.getD_some]
        · rw [read?_cons, ht, Option.bind_some, hu]
      · rintro ⟨rfl, hclosed⟩
        refine hopen ['\n'] t (by simp) (by simp) rfl ?_ hclosed
        rw [read?_cons, ht, Option.bind_some, read?_nil]

/-- Only a brace that opens goes deeper. -/
theorem depth_le_of_next? {r s : Nesting} {c : Char} (hc : c ≠ '{') (h : r.next? c = some s) :
    s.depth ≤ r.depth := by
  unfold next? at h
  split at h
  · split at h
    · cases h
      exact Nat.le_refl _
    · split at h
      · rename_i b hb
        cases h
        have hne : b ≠ .brace := by
          rintro rfl
          unfold Bracket.ofLeft? at hb
          split at hb <;> simp_all
        exact Nat.le_of_eq (List.count_cons_of_ne hne)
      · split at h
        · cases h
          exact (List.tail_sublist _).count_le _
        · cases h
      · cases h
        exact Nat.le_refl _
  · split at h
    · cases h
      exact Nat.le_refl _
    · split at h <;> cases h <;> exact Nat.le_refl _
  · cases h
    exact Nat.le_refl _

theorem depth_le_of_read? {r s : Nesting} {cs : List Char} (hcs : '{' ∉ cs)
    (h : r.read? cs = some s) : s.depth ≤ r.depth := by
  induction cs generalizing r with
  | nil =>
    cases h
    exact Nat.le_refl _
  | cons c cs ih =>
    obtain ⟨hc, hcs⟩ := not_or.1 (mt List.mem_cons.2 hcs)
    rw [read?_cons] at h
    obtain ⟨t, ht, h⟩ := Option.bind_eq_some_iff.1 h
    exact Nat.le_trans (ih hcs h) (depth_le_of_next? (Ne.symm hc) ht)

end Nesting

/-- A text that is a definition by itself, with the literals between quotes that stand in it: a head
on one line and a block in braces that ends with the text. Its brackets are closed in order, each
brace that opens is followed by a line break, and a brace is open everywhere but in the head and
after the brace at the end. -/
structure Standalone (literals : List String) (head cs : List Char) : Prop where
  closed : start.read? cs = some ⟨.code, [], literals⟩
  breaks : ∀ before after r, cs = before ++ '{' :: after → start.read? before = some r →
    r.zone = .code → after.head? = some '\n'
  line : '\n' ∉ head
  begins : head ++ ['{', '\n'] <+: cs
  ends : ['}', '\n'] <:+ cs
  depth_eq_zero_iff : ∀ before r, before <+: cs → start.read? before = some r →
    (r.depth = 0 ↔ before <+: head ∨ cs.length ≤ before.length + 1)

/-- The brace around a balanced text is open all along it, and no longer. -/
theorem Balanced.depth_of_block {ls ps : List String} {cs before after : List Char}
    (h : Balanced ls cs) (hs : cs ++ ['}', '\n'] = before ++ after) {r : Nesting}
    (hr : Nesting.read? ⟨.code, [.brace], ps⟩ before = some r) :
    r.depth = 0 ↔ cs.length < before.length := by
  have hinside : ∀ rest, cs = before ++ rest → r.depth ≠ 0 := by
    intro rest hcut
    have hopened := (h.within hcut hr).opened.sublist.count_le .brace
    exact Nat.ne_of_gt hopened
  rcases List.append_eq_append_iff.1 hs with ⟨rest, rfl, hcut⟩ | ⟨rest, hcut, -⟩
  · rw [Nesting.read?_append, h.read?, Option.bind_some] at hr
    rcases rest with _ | ⟨c, _ | ⟨d, rest⟩⟩
    · exact iff_of_false (hinside [] (by simp)) (by simp)
    · obtain ⟨rfl, -⟩ := List.cons.inj hcut
      cases hr
      exact iff_of_true rfl (by simp)
    · obtain ⟨rfl, hbreak⟩ := List.cons.inj hcut
      obtain ⟨rfl, hnil⟩ := List.cons.inj hbreak
      obtain ⟨rfl, -⟩ := List.append_eq_nil_iff.1 hnil.symm
      cases hr
      exact iff_of_true rfl (by simp)
  · refine iff_of_false (hinside rest hcut) ?_
    rw [hcut, List.length_append]
    omega

theorem Balanced.standalone {ls : List String} {head body : List Char} (h : Balanced [] head)
    (hline : ∀ c ∈ head, c ≠ '{' ∧ c ≠ '\n') (k : Balanced ls body) :
    Standalone ls head (head ++ '{' :: ('\n' :: body ++ ['}', '\n'])) := by
  have hbreak : Balanced [] ['\n'] := .plain (by decide)
  have hblock : Balanced ls ('\n' :: body) := hbreak.append k
  have hall : Balanced ls (head ++ '{' :: ('\n' :: body ++ ['}', '\n'])) := by
    have hgroup := h.append ((hblock.group .brace fun _ => rfl).append hbreak)
    simpa [Bracket.left, Bracket.right] using hgroup
  refine ⟨hall.read?, fun before after r hs hr => (hall.within hs hr).breaks after rfl,
    fun hmem => (hline _ hmem).2 rfl, by simp, ⟨head ++ '{' :: '\n' :: body, by simp⟩, ?_⟩
  intro before r hbefore hr
  rcases List.prefix_or_prefix_of_prefix hbefore (List.prefix_append head _) with hin | hout
  · have hbrace : '{' ∉ before := fun hmem => (hline _ (hin.subset hmem)).1 rfl
    have hdepth : r.depth = 0 := Nat.le_zero.1 (Nesting.depth_le_of_read? hbrace hr)
    exact iff_of_true hdepth (.inl hin)
  · obtain ⟨rest, rfl⟩ := hout
    obtain ⟨after, hafter⟩ := hbefore
    rw [List.append_assoc, List.append_cancel_left_eq] at hafter
    rw [Nesting.read?_append, start, h.read?, Option.bind_some] at hr
    cases rest with
    | nil =>
      cases hr
      exact iff_of_true rfl (.inl (by simp))
    | cons c rest =>
      obtain ⟨rfl, hcut⟩ := List.cons.inj hafter
      have hnot : ¬ head ++ '{' :: rest <+: head := by
        intro hle
        have hlength := hle.length_le
        rw [List.length_append, List.length_cons] at hlength
        omega
      have hopen : Nesting.next? ⟨.code, [], [] ++ []⟩ '{' = some ⟨.code, [.brace], []⟩ := rfl
      rw [Nesting.read?_cons, hopen, Option.bind_some] at hr
      rw [hblock.depth_of_block hcut.symm hr, or_iff_right hnot]
      simp only [List.length_append, List.length_cons, List.length_nil]
      omega

namespace Standalone

variable {ls : List String} {head cs : List Char}

/-- The text of a definition is one definition, whatever comes after it. -/
theorem definitions_append (h : Standalone ls head cs) (rest : List Char) :
    start.definitions (cs ++ rest) = cs :: start.definitions rest := by
  obtain ⟨body, hbody⟩ := h.ends
  refine Nesting.definitions_append h.closed ⟨rfl, rfl⟩ (by simp [← hbody]) ?_ rest
  intro before s hbefore hne hlast hr hclosed
  have hdepth : s.depth = 0 := by rw [Nesting.depth, hclosed.2, List.count_nil]
  rcases (h.depth_eq_zero_iff before s hbefore hr).1 hdepth with hin | hlength
  · exact h.line (hin.subset (List.mem_of_getLast? hlast))
  · -- What is left is the last line break, and before it there is a brace.
    have hbrace : before <+: body ++ ['}'] := by
      have hwhole : body ++ ['}'] <+: cs := ⟨['\n'], by simp [← hbody]⟩
      refine List.prefix_of_prefix_length_le hbefore hwhole ?_
      have hlt := Nat.lt_of_le_of_ne hbefore.length_le fun he => hne (hbefore.eq_of_length he)
      rw [← hbody] at hlt
      simp only [List.length_append, List.length_cons, List.length_nil] at hlt ⊢
      omega
    have hsame : before = body ++ ['}'] := by
      refine hbrace.eq_of_length_le ?_
      rw [← hbody] at hlength
      simp only [List.length_append, List.length_cons, List.length_nil] at hlength ⊢
      omega
    rw [hsame, List.getLast?_concat] at hlast
    cases hlast

/-- The definitions of texts put one after the other are these texts. -/
theorem definitions_flatten {ts : List (List Char)}
    (h : ∀ t ∈ ts, ∃ ls head, Standalone ls head t) : start.definitions ts.flatten = ts := by
  induction ts with
  | nil => rfl
  | cons t ts ih =>
    obtain ⟨⟨ls, head, ht⟩, hts⟩ := List.forall_mem_cons.1 h
    rw [List.flatten_cons, ht.definitions_append, ih hts]

example : start.definitions "f() \x7b\nif('\x7d') \x7b\n\x7d\n\x7d\ng() \x7b\n\x7d\n".toList =
    ["f() \x7b\nif('\x7d') \x7b\n\x7d\n\x7d\n".toList, "g() \x7b\n\x7d\n".toList] := by decide

end Standalone

end Recast
