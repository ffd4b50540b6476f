import Mathlib
import RangeCalc.Proofs.Formula.Cut
import RangeCalc.Proofs.Formula.Refusal
import RangeCalc.Proofs.Shorthand.Times

/-!
# Arguments and thousands separators

A comma between two arguments is dropped as a separator of thousands if a digit stands before it and
exactly three digits behind it, for the rule does not look at the parentheses around. It is the only way in
which shorthand changes how many arguments stand in a parenthesis of a formula.

* `SumPhrase.argumentCounts`: how many arguments the parentheses of a phrase hold;
* `commasInside`, `parenthesisCounts`: the same read off a text;
* `Encloses`, `Lists`: what these are for phrases and for lists of arguments;
* `GroupsThousands`: a comma that is dropped;
* `parse_expand_arguments`: a formula's parentheses hold as many arguments with shorthand written out exactly
  if no comma of it is dropped.
-/

namespace RangeCalc

open Text Shorthand

/-! ## Phrases -/

mutual

/-- How many arguments each parenthesis holds, in the order in which they are opened. One that only groups
holds one. -/
def SumPhrase.argumentCounts : SumPhrase → List Nat
  | .product p => p.argumentCounts
  | .sum lhs _ rhs => lhs.argumentCounts ++ rhs.argumentCounts

def ProductPhrase.argumentCounts : ProductPhrase → List Nat
  | .unary u => u.argumentCounts
  | .product lhs _ rhs => lhs.argumentCounts ++ rhs.argumentCounts

def UnaryPhrase.argumentCounts : UnaryPhrase → List Nat
  | .power p => p.argumentCounts
  | .signed _ operand => operand.argumentCounts

def PowerPhrase.argumentCounts : PowerPhrase → List Nat
  | .atom a => a.argumentCounts
  | .power base _ exponent => base.argumentCounts ++ exponent.argumentCounts

def AtomPhrase.argumentCounts : AtomPhrase → List Nat
  | .number _ => []
  | .name _ => []
  | .emptyCall _ => [0]
  | .call _ args => args.trees.length :: args.argumentCounts
  | .group inner => 1 :: inner.argumentCounts

def ArgumentsPhrase.argumentCounts : ArgumentsPhrase → List Nat
  | .last s => s.argumentCounts
  | .more s rest => s.argumentCounts ++ rest.argumentCounts

end

/-! ## Texts -/

/-- The characters that set arguments apart. -/
def isArgumentMark (c : Char) : Bool :=
  ['(', ')', ','].elem c

/-- The commas behind an opened parenthesis up to where it is closed, without those in parentheses of their
own. `depth` is how many of these are open. -/
def commasInside : (depth : Nat) → List Char → Nat
  | _, [] => 0
  | depth, '(' :: rest => commasInside (depth + 1) rest
  | 0, ')' :: _ => 0
  | depth + 1, ')' :: rest => commasInside depth rest
  | 0, ',' :: rest => commasInside 0 rest + 1
  | depth, _ :: rest => commasInside depth rest

/-- How many arguments each parenthesis of a text without white space holds. -/
def parenthesisCounts : List Char → List Nat
  | [] => []
  | '(' :: rest =>
    (if rest.head? = some ')' then 0 else commasInside 0 rest + 1) :: parenthesisCounts rest
  | _ :: rest => parenthesisCounts rest

section

variable {c : Char} (hc : isArgumentMark c = false) (depth : Nat) (rest : List Char)

include hc

theorem ne_of_not_argumentMark : c ≠ '(' ∧ c ≠ ')' ∧ c ≠ ',' := by
  simpa [isArgumentMark] using hc

theorem commasInside_other : commasInside depth (c :: rest) = commasInside depth rest := by
  obtain ⟨hopen, hclose, hcomma⟩ := ne_of_not_argumentMark hc
  rw [commasInside.eq_def]
  split <;> simp_all

theorem parenthesisCounts_other : parenthesisCounts (c :: rest) = parenthesisCounts rest := by
  obtain ⟨hopen, -⟩ := ne_of_not_argumentMark hc
  rw [parenthesisCounts.eq_def]
  split <;> simp_all

end

theorem commasInside_comma (depth : Nat) (rest : List Char) :
    commasInside (depth + 1) (',' :: rest) = commasInside (depth + 1) rest := rfl

/-- A text that is closed in itself: no parenthesis reaches out of it, and no comma of it sets apart
arguments of a parenthesis around it. -/
structure Encloses (cs : List Char) (counts : List Nat) : Prop where
  head : ∃ c tail, cs = c :: tail ∧ c ≠ ')'
  inside : ∀ depth rest, commasInside depth (cs ++ rest) = commasInside depth rest
  counted : ∀ rest, parenthesisCounts (cs ++ rest) = counts ++ parenthesisCounts rest
  commas : cs.count ',' + counts.length = counts.sum + counts.count 0

/-- Such texts with commas between them. -/
structure Lists (cs : List Char) (length : Nat) (counts : List Nat) : Prop where
  head : ∃ c tail, cs = c :: tail ∧ c ≠ ')'
  inside : ∀ rest, commasInside 0 (cs ++ rest) + 1 = length + commasInside 0 rest
  deeper : ∀ depth rest, commasInside (depth + 1) (cs ++ rest) = commasInside (depth + 1) rest
  counted : ∀ rest, parenthesisCounts (cs ++ rest) = counts ++ parenthesisCounts rest
  commas : cs.count ',' + 1 + counts.length = length + (counts.sum + counts.count 0)

namespace Encloses

variable {cs ds : List Char} {a b : List Nat}

theorem append (h : Encloses cs a) (h' : Encloses ds b) : Encloses (cs ++ ds) (a ++ b) where
  head := by
    obtain ⟨c, tail, rfl, hc⟩ := h.head
    exact ⟨c, tail ++ ds, rfl, hc⟩
  inside depth rest := by rw [List.append_assoc, h.inside, h'.inside]
  counted rest := by rw [List.append_assoc, h.counted, h'.counted, List.append_assoc]
  commas := by
    have := h.commas
    have := h'.commas
    simp only [List.count_append, List.length_append, List.sum_append]
    omega

/-- A text with no mark in it. -/
theorem of_no_mark (hne : cs ≠ []) (h : ∀ c ∈ cs, isArgumentMark c = false) : Encloses cs [] where
  head := by
    obtain ⟨c, tail, rfl⟩ := List.exists_cons_of_ne_nil hne
    exact ⟨c, tail, rfl, (ne_of_not_argumentMark (h c List.mem_cons_self)).2.1⟩
  inside depth rest := by
    clear hne
    induction cs with
    | nil => rfl
    | cons c cs ih =>
      rw [List.cons_append, commasInside_other (h c List.mem_cons_self)]
      exact ih fun d hd => h d (List.mem_cons_of_mem c hd)
  counted rest := by
    clear hne
    induction cs with
    | nil => rfl
    | cons c cs ih =>
      rw [List.cons_append, parenthesisCounts_other (h c List.mem_cons_self)]
      exact ih fun d hd => h d (List.mem_cons_of_mem c hd)
  commas := by
    have hcomma : cs.count ',' = 0 := List.count_eq_zero.mpr fun hmem => by
      simpa [isArgumentMark] using h ',' hmem
    rw [hcomma]
    rfl

theorem token {t : Token} (ht : t.IsTerminal) (hmark : t ∉ [Token.leftParen, .rightParen, .comma]) :
    Encloses t.chars [] := by
  refine of_no_mark ht.chars_ne_nil fun c hc => Bool.of_not_eq_true fun hcmark => hmark ?_
  have hmem : c ∈ ['(', ')', ','] := List.elem_iff.mp hcmark
  have hsingle : t.chars = [c] :=
    eq_of_mark (List.elem_iff.mpr (List.mem_cons_of_mem ' ' hmem)) ⟨t, ht, rfl⟩ hc
  simp only [List.mem_cons, List.not_mem_nil, or_false] at hmem
  rcases hmem with rfl | rfl | rfl
  · obtain rfl : t = .leftParen := ht.eq_of_chars trivial hsingle
    simp
  · obtain rfl : t = .rightParen := ht.eq_of_chars trivial hsingle
    simp
  · obtain rfl : t = .comma := ht.eq_of_chars trivial hsingle
    simp

/-- Two such texts with an operator between them. -/
theorem between {t : Token} (ht : t.IsTerminal) (hmark : t ∉ [Token.leftParen, .rightParen, .comma])
    (h : Encloses cs a) (h' : Encloses ds b) : Encloses (cs ++ (t.chars ++ ds)) (a ++ b) :=
  h.append ((token ht hmark).append h')

theorem single (h : Encloses cs a) : Lists cs 1 a where
  head := h.head
  inside rest := by rw [h.inside, Nat.add_comm]
  deeper depth rest := h.inside _ rest
  counted := h.counted
  commas := by
    have := h.commas
    omega

theorem emptyParenthesis : Encloses ['(', ')'] [0] where
  head := ⟨'(', _, rfl, by decide⟩
  inside _ _ := rfl
  counted _ := rfl
  commas := rfl

end Encloses

namespace Lists

variable {cs ds : List Char} {n : Nat} {a b : List Nat}

theorem cons (h : Encloses cs a) (h' : Lists ds n b) : Lists (cs ++ ',' :: ds) (n + 1) (a ++ b) where
  head := by
    obtain ⟨c, tail, rfl, hc⟩ := h.head
    exact ⟨c, _, rfl, hc⟩
  inside rest := by
    have := h'.inside rest
    rw [List.append_assoc, h.inside, List.cons_append, commasInside]
    omega
  deeper depth rest := by
    rw [List.append_assoc, h.inside, List.cons_append, commasInside_comma, h'.deeper]
  counted rest := by
    rw [List.append_assoc, h.counted, List.cons_append, parenthesisCounts, h'.counted, List.append_assoc]
    nofun
  commas := by
    have := h.commas
    have := h'.commas
    simp only [List.count_append, List.count_cons_self, List.length_append, List.sum_append]
    omega

/-- A parenthesis around a list of arguments holds them. -/
theorem parenthesis (h : Lists cs n a) : Encloses ('(' :: (cs ++ [')'])) (n :: a) where
  head := ⟨'(', _, rfl, by decide⟩
  inside depth rest := by
    rw [List.cons_append, List.append_assoc, commasInside, h.deeper]
    rfl
  counted rest := by
    obtain ⟨c, tail, hcs, hc⟩ := h.head
    have hopen : ¬ (cs ++ ([')'] ++ rest)).head? = some ')' := by
      rw [hcs]
      simpa using hc
    have hinside := h.inside (')' :: rest)
    rw [List.cons_append, List.append_assoc, parenthesisCounts, if_neg hopen, h.counted,
      List.singleton_append, hinside]
    rfl
  commas := by
    have := h.commas
    have hlength : n ≠ 0 := by
      have : commasInside 0 (cs ++ []) + 1 = n + 0 := h.inside []
      omega
    simp [hlength]
    omega

end Lists

section

variable (op : SumOp) (op' : ProductOp) (op'' : PowerOp) (sign : Sign)

theorem SumOp.token_spec : op.token.IsTerminal ∧ op.token ∉ [Token.leftParen, .rightParen, .comma] := by
  cases op <;> exact ⟨trivial, by decide⟩

theorem ProductOp.token_spec :
    op'.token.IsTerminal ∧ op'.token ∉ [Token.leftParen, .rightParen, .comma] := by
  cases op' <;> exact ⟨trivial, by decide⟩

theorem PowerOp.token_spec :
    op''.token.IsTerminal ∧ op''.token ∉ [Token.leftParen, .rightParen, .comma] := by
  cases op'' <;> exact ⟨trivial, by decide⟩

theorem Sign.token_spec :
    sign.token.IsTerminal ∧ sign.token ∉ [Token.leftParen, .rightParen, .comma] := by
  cases sign <;> exact ⟨trivial, by decide⟩

end

/-- The text of some tokens without white space. -/
def joinedChars (ts : List Token) : List Char :=
  ts.flatMap Token.chars

@[simp]
theorem joinedChars_cons (t : Token) (ts : List Token) : joinedChars (t :: ts) = t.chars ++ joinedChars ts :=
  rfl

@[simp]
theorem joinedChars_append (ts us : List Token) :
    joinedChars (ts ++ us) = joinedChars ts ++ joinedChars us :=
  List.flatMap_append

mutual

/-- The parentheses of a phrase's text hold what those of the phrase hold. -/
theorem SumPhrase.encloses : ∀ s : SumPhrase, (∀ t ∈ s.tokens, t.IsTerminal) →
    Encloses (joinedChars s.tokens) s.argumentCounts
  | .product p, h => p.encloses h
  | .sum lhs op rhs, h => by
    obtain ⟨hlhs, hrest⟩ := List.forall_mem_append.mp h
    rw [SumPhrase.tokens, joinedChars_append, joinedChars_cons]
    exact .between op.token_spec.1 op.token_spec.2 (lhs.encloses hlhs)
      (rhs.encloses (List.forall_mem_cons.mp hrest).2)

theorem ProductPhrase.encloses : ∀ p : ProductPhrase, (∀ t ∈ p.tokens, t.IsTerminal) →
    Encloses (joinedChars p.tokens) p.argumentCounts
  | .unary u, h => u.encloses h
  | .product lhs op rhs, h => by
    obtain ⟨hlhs, hrest⟩ := List.forall_mem_append.mp h
    rw [ProductPhrase.tokens, joinedChars_append, joinedChars_cons]
    exact .between op.token_spec.1 op.token_spec.2 (lhs.encloses hlhs)
      (rhs.encloses (List.forall_mem_cons.mp hrest).2)

theorem UnaryPhrase.encloses : ∀ u : UnaryPhrase, (∀ t ∈ u.tokens, t.IsTerminal) →
    Encloses (joinedChars u.tokens) u.argumentCounts
  | .power p, h => p.encloses h
  | .signed sign operand, h =>
    .append (.token sign.token_spec.1 sign.token_spec.2) (operand.encloses (List.forall_mem_cons.mp h).2)

theorem PowerPhrase.encloses : ∀ p : PowerPhrase, (∀ t ∈ p.tokens, t.IsTerminal) →
    Encloses (joinedChars p.tokens) p.argumentCounts
  | .atom a, h => a.encloses h
  | .power base op exponent, h => by
    obtain ⟨hbase, hrest⟩ := List.forall_mem_append.mp h
    rw [PowerPhrase.tokens, joinedChars_append, joinedChars_cons]
    exact .between op.token_spec.1 op.token_spec.2 (base.encloses hbase)
      (exponent.encloses (List.forall_mem_cons.mp hrest).2)

theorem AtomPhrase.encloses : ∀ a : AtomPhrase, (∀ t ∈ a.tokens, t.IsTerminal) →
    Encloses (joinedChars a.tokens) a.argumentCounts
  | .number text, h => by
    have hnumber : Encloses text [] := .token (h _ List.mem_cons_self) (by simp)
    simpa [AtomPhrase.tokens, AtomPhrase.argumentCounts, joinedChars, Token.chars] using hnumber
  | .name text, h => by
    have hname : Encloses text [] := .token (h _ List.mem_cons_self) (by simp)
    simpa [AtomPhrase.tokens, AtomPhrase.argumentCounts, joinedChars, Token.chars] using hname
  | .emptyCall name, h =>
    .append (.token (h _ List.mem_cons_self) (by simp)) .emptyParenthesis
  | .call name args, h => by
    obtain ⟨hname, hrest⟩ := List.forall_mem_cons.mp h
    have hargs := args.lists fun t ht => hrest t (by simp [ht])
    simpa [AtomPhrase.tokens, AtomPhrase.argumentCounts, joinedChars, Token.chars] using
      .append (.token hname (by simp)) hargs.parenthesis
  | .group inner, h => by
    have hinner := inner.encloses fun t ht => h t (by simp [AtomPhrase.tokens, ht])
    simpa [AtomPhrase.tokens, AtomPhrase.argumentCounts, joinedChars, Token.chars] using
      hinner.single.parenthesis

theorem ArgumentsPhrase.lists : ∀ args : ArgumentsPhrase, (∀ t ∈ args.tokens, t.IsTerminal) →
    Lists (joinedChars args.tokens) args.trees.length args.argumentCounts
  | .last s, h => (s.encloses h).single
  | .more s rest, h => by
    obtain ⟨hs, hrest⟩ := List.forall_mem_append.mp h
    rw [ArgumentsPhrase.tokens, joinedChars_append, joinedChars_cons]
    exact .cons (s.encloses hs) (rest.lists (List.forall_mem_cons.mp hrest).2)

end

/-- A text without its white space. -/
def withoutBlanks (text : List Char) : List Char :=
  text.filter fun c => !isBlank c

theorem Splits.withoutBlanks_eq {text : List Char} {ts : List Token} (h : Splits text ts) :
    withoutBlanks text = joinedChars ts := by
  induction h with
  | nil => rfl
  | blank hc _ ih =>
    rw [withoutBlanks, List.filter_cons_of_neg (by simp [isBlank_of_isTokenBlank hc])]
    exact ih
  | @token t cs rest ts ht hfront _ ih =>
    have hkeep : t.chars.filter (fun c => !isBlank c) = t.chars :=
      List.filter_eq_self.mpr fun c hc => by simp [not_isBlank_of_mem ⟨t, ht, rfl⟩ hc]
    rw [hfront.split, withoutBlanks, List.filter_append, hkeep, joinedChars_cons, ← ih]
    rfl

/-- What a formula's parentheses hold can be read off its text. -/
theorem SumPhrase.encloses_text {text : List Char} {s : SumPhrase} (h : Splits text s.tokens) :
    Encloses (withoutBlanks text) s.argumentCounts := by
  rw [h.withoutBlanks_eq]
  exact s.encloses fun t ht => h.isTerminal t ht

/-! ## Shorthand -/

/-- A character stays, or neither it nor the one in its place is white space or sets arguments apart. -/
def KeepsMark (c d : Char) : Prop :=
  c = d ∨ ∀ e ∈ [c, d], isBlank e = false ∧ isArgumentMark e = false

section

variable {cs ds : List Char} (h : List.Forall₂ KeepsMark cs ds)

include h

theorem commasInside_congr (depth : Nat) : commasInside depth cs = commasInside depth ds := by
  induction h generalizing depth with
  | nil => rfl
  | @cons c d cs ds hcd _ ih =>
    rcases hcd with rfl | hother
    · rw [commasInside.eq_def, commasInside.eq_def]
      split <;> simp_all
    · rw [commasInside_other (hother c (by simp)).2, commasInside_other (hother d (by simp)).2, ih]

theorem head?_eq_close_congr : cs.head? = some ')' ↔ ds.head? = some ')' := by
  cases h with
  | nil => rfl
  | @cons c d cs ds hcd _ =>
    rcases hcd with rfl | hother
    · rfl
    · have hc := (ne_of_not_argumentMark (hother c (by simp)).2).2.1
      have hd := (ne_of_not_argumentMark (hother d (by simp)).2).2.1
      simp [hc, hd]

theorem parenthesisCounts_congr : parenthesisCounts cs = parenthesisCounts ds := by
  induction h with
  | nil => rfl
  | @cons c d cs ds hcd hrest ih =>
    rcases hcd with rfl | hother
    · by_cases hopen : c = '('
      · rw [hopen, parenthesisCounts, parenthesisCounts, commasInside_congr hrest, ih]
        simp only [head?_eq_close_congr hrest]
      · rw [parenthesisCounts.eq_3 _ _ hopen, parenthesisCounts.eq_3 _ _ hopen, ih]
    · rw [parenthesisCounts_other (hother c (by simp)).2, parenthesisCounts_other (hother d (by simp)).2, ih]

theorem filter_isArgumentMark_congr : cs.filter isArgumentMark = ds.filter isArgumentMark := by
  induction h with
  | nil => rfl
  | @cons c d cs ds hcd _ ih =>
    rcases hcd with rfl | hother
    · simp only [List.filter_cons, ih]
    · simp [(hother c (by simp)).2, (hother d (by simp)).2, ih]

theorem withoutBlanks_congr : List.Forall₂ KeepsMark (withoutBlanks cs) (withoutBlanks ds) := by
  induction h with
  | nil => exact .nil
  | @cons c d cs ds hcd _ ih =>
    rcases hcd with rfl | hother
    · by_cases hc : isBlank c = true
      · rw [withoutBlanks, withoutBlanks, List.filter_cons_of_neg (by simp [hc]),
          List.filter_cons_of_neg (by simp [hc])]
        exact ih
      · rw [withoutBlanks, withoutBlanks, List.filter_cons_of_pos (by simp [hc]),
          List.filter_cons_of_pos (by simp [hc])]
        exact .cons (.inl rfl) ih
    · rw [withoutBlanks, withoutBlanks, List.filter_cons_of_pos (by simp [(hother c (by simp)).1]),
        List.filter_cons_of_pos (by simp [(hother d (by simp)).1])]
      exact .cons (.inr hother) ih

end

/-- The letter for a product stands in the way of no parenthesis and of no argument. -/
theorem keepsMark_timesSign {before text : List Char} {ps : List (Piece (List Char))}
    (h : Scans timesSign before text ps) : List.Forall₂ KeepsMark (rewritten id ps) text := by
  induction h with
  | nil => exact .nil
  | char _ _ ih => exact .cons (.inl rfl) ih
  | found _ hsome _ ih =>
    obtain ⟨c, hc, -, -, htext, rfl⟩ := timesSign_eq_some_iff.mp hsome
    rw [htext]
    refine .cons (.inr fun e he => ?_) ih
    simp only [List.mem_cons, List.not_mem_nil, or_false] at he
    rcases hc with rfl | rfl <;> rcases he with rfl | rfl <;> decide

/-- Dropping separators drops as many commas as characters. -/
theorem sublist_thousands {before text : List Char} {ps : List (Piece (List Char))}
    (h : Scans thousands before text ps) :
    (rewritten id ps).Sublist text ∧
      text.length + (rewritten id ps).count ',' = (rewritten id ps).length + text.count ',' := by
  induction h with
  | nil => exact ⟨.slnil, rfl⟩
  | char _ _ ih =>
    refine ⟨ih.1.cons_cons _, ?_⟩
    rw [rewritten_char, List.length_cons, List.length_cons, List.count_cons, List.count_cons]
    have := ih.2
    omega
  | found _ hsome _ ih =>
    obtain ⟨-, rfl, htext, -⟩ := thousands_eq_some hsome
    rw [htext]
    refine ⟨ih.1.cons _, ?_⟩
    rw [rewritten_found, id_eq, List.nil_append, List.length_cons, List.count_cons_self]
    have := ih.2
    omega

variable {text : List Char}

theorem count_comma_thousands_iff :
    (replaceEach thousands text).count ',' = text.count ',' ↔ Free (Found thousands) text := by
  obtain ⟨ps, hps⟩ := Scans.exists_scan thousands_covers [] text
  obtain ⟨hsublist, hcount⟩ := sublist_thousands hps
  rw [← hps.replaceEach_eq] at hsublist hcount
  constructor
  · intro heq
    have hkept : replaceEach thousands text = text := hsublist.eq_of_length (by omega)
    rw [← hkept]
    exact thousands_free text
  · intro hfree
    rw [replaceEach_of_free hfree]

/-- A comma stands between a digit and exactly three digits. -/
def GroupsThousands (text : List Char) : Prop :=
  ∃ pre d post, text = pre ++ d :: ',' :: post ∧ isDigit d = true ∧ (post.takeWhile isDigit).length = 3

theorem free_thousands_iff : Free (Found thousands) text ↔ ¬ GroupsThousands text := by
  constructor
  · rintro hfree ⟨pre, d, post, rfl, hd, hgroup⟩
    have hlast : d ∈ (pre ++ [d]).reverse.head? := by simp
    exact hfree (pre ++ [d]) (',' :: post) (by simp)
      (found_thousands_iff.mpr ⟨⟨d, hlast, hd⟩, post, rfl, hgroup⟩)
  · rintro hnone pre post rfl hfound
    obtain ⟨⟨d, hd, hdigit⟩, rest, rfl, hgroup⟩ := found_thousands_iff.mp hfound
    rw [List.head?_reverse] at hd
    obtain ⟨init, rfl⟩ := List.getLast?_eq_some_iff.mp hd
    exact hnone ⟨init, d, rest, by simp, hdigit, hgroup⟩

/-- No percent sign stands among tokens. -/
theorem Splits.no_percent {ts : List Token} (h : Splits text ts) : '%' ∉ text := by
  intro hmem
  exact absurd (h.mem_cases hmem) (by decide)

theorem expand_of_no_percent (h : '%' ∉ text) :
    expand text = replaceEach timesSign (replaceEach thousands text) := by
  obtain ⟨ps, hps⟩ := Scans.exists_scan thousands_covers [] text
  have hsublist := (sublist_thousands hps).1
  rw [← hps.replaceEach_eq] at hsublist
  rw [expand, replaceEach_percents_of_not_mem fun hmem => h (hsublist.subset hmem)]

/-- Shorthand in a formula leaves its parentheses and commas, apart from the commas of thousands. -/
theorem keepsMark_expand {ts : List Token} (h : Splits text ts) :
    List.Forall₂ KeepsMark (expand text) (replaceEach thousands text) := by
  obtain ⟨ps, hps⟩ := Scans.exists_scan timesSign_covers [] (replaceEach thousands text)
  rw [expand_of_no_percent h.no_percent, hps.replaceEach_eq]
  exact keepsMark_timesSign hps

theorem count_comma_expand {ts : List Token} (h : Splits text ts) :
    (expand text).count ',' = (replaceEach thousands text).count ',' := by
  have hfilter := filter_isArgumentMark_congr (keepsMark_expand h)
  rw [← List.count_filter (p := isArgumentMark) (by decide), hfilter, List.count_filter (by decide)]

theorem filter_expand_iff {ts : List Token} (h : Splits text ts) :
    (expand text).filter isArgumentMark = text.filter isArgumentMark ↔ ¬ GroupsThousands text := by
  rw [← free_thousands_iff]
  constructor
  · intro heq
    rw [← count_comma_thousands_iff, ← count_comma_expand h,
      ← List.count_filter (p := isArgumentMark) (by decide), heq, List.count_filter (by decide)]
  · intro hfree
    have hkeeps := keepsMark_expand h
    rw [replaceEach_of_free hfree] at hkeeps
    exact filter_isArgumentMark_congr hkeeps

/-- Each parenthesis holds as many arguments as before exactly if no comma is dropped. -/
theorem argumentCounts_expand_iff {s s' : SumPhrase} (h : Splits text s.tokens)
    (h' : Splits (expand text) s'.tokens) :
    s'.argumentCounts = s.argumentCounts ↔ ¬ GroupsThousands text := by
  have hencloses := s.encloses_text h
  have hencloses' := s'.encloses_text h'
  rw [← free_thousands_iff]
  constructor
  · intro heq
    have hcommas : (withoutBlanks (expand text)).count ',' = (withoutBlanks text).count ',' := by
      have := hencloses.commas
      have := hencloses'.commas
      rw [heq] at this
      omega
    rw [withoutBlanks, withoutBlanks, List.count_filter (by decide), List.count_filter (by decide),
      count_comma_expand h] at hcommas
    exact count_comma_thousands_iff.mp hcommas
  · intro hfree
    have hkeeps := withoutBlanks_congr (keepsMark_expand h)
    rw [replaceEach_of_free hfree] at hkeeps
    have hcounted := hencloses.counted []
    have hcounted' := hencloses'.counted []
    rw [List.append_nil] at hcounted hcounted'
    rw [parenthesisCounts_congr hkeeps, hcounted] at hcounted'
    simpa [parenthesisCounts] using hcounted'.symm

/-- A formula keeps its parentheses and commas with shorthand written out, and if the text that results is a
formula, each of its parentheses holds as many arguments as before, exactly if no comma stands between a digit
and exactly three digits. -/
theorem parse_expand_arguments {tree : Tree} (h : parse text = .ok tree) :
    ∃ s : SumPhrase, Splits text s.tokens ∧ s.tree = tree ∧
      ((expand text).filter isArgumentMark = text.filter isArgumentMark ↔ ¬ GroupsThousands text) ∧
      ∀ tree', parse (expand text) = .ok tree' →
        ∃ s' : SumPhrase, Splits (expand text) s'.tokens ∧ s'.tree = tree' ∧
          (s'.argumentCounts = s.argumentCounts ↔ ¬ GroupsThousands text) := by
  obtain ⟨s, hs, htree⟩ := parse_eq_ok_iff.mp h
  refine ⟨s, hs, htree, filter_expand_iff hs, fun tree' h' => ?_⟩
  obtain ⟨s', hs', htree'⟩ := parse_eq_ok_iff.mp h'
  exact ⟨s', hs', htree', argumentCounts_expand_iff hs hs'⟩

/-- With a blank behind the comma, both arguments stay. -/
theorem spacedMax_arguments :
    parse "max(1, 234)".toList = .ok (.call "max".toList [.number "1".toList, .number "234".toList]) ∧
      ∃ s : SumPhrase, Splits "max(1, 234)".toList s.tokens ∧
        s.tree = .call "max".toList [.number "1".toList, .number "234".toList] ∧
        ((expand "max(1, 234)".toList).filter isArgumentMark = "max(1, 234)".toList.filter isArgumentMark ↔
          ¬ GroupsThousands "max(1, 234)".toList) ∧
        ∀ tree', parse (expand "max(1, 234)".toList) = .ok tree' →
          ∃ s' : SumPhrase, Splits (expand "max(1, 234)".toList) s'.tokens ∧ s'.tree = tree' ∧
            (s'.argumentCounts = s.argumentCounts ↔ ¬ GroupsThousands "max(1, 234)".toList) :=
  have hparse : parse "max(1, 234)".toList =
      .ok (.call "max".toList [.number "1".toList, .number "234".toList]) := by rfl
  ⟨hparse, parse_expand_arguments hparse⟩

/-- Without it, the two arguments become one. -/
theorem max_arguments_merge :
    parse "max(1,234)".toList = .ok (.call "max".toList [.number "1".toList, .number "234".toList]) ∧
      expand "max(1,234)".toList = "max(1234)".toList ∧
      parse "max(1234)".toList = .ok (.call "max".toList [.number "1234".toList]) := by
  refine ⟨?_, ?_, ?_⟩
  · rfl
  · decide
  · rfl

end RangeCalc
