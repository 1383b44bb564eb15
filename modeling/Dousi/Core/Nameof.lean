import Dousi.Lib.Word
import Mathlib.Tactic.Common

/-!
# NAMEOF: the name of a method from the text of an expression

`pretty_name` takes the text between the parentheses of `NAMEOF` and looks at it from the
back: groups of parentheses go, a template argument list goes, and of what is left the word
at the end is the name. Depths are `size_t` and wrap around below zero.
-/
namespace Dousi.Core.Nameof

open Dousi.Lib.Word

def between (low high : Char) (b : UInt8) : Bool := low.toUInt8 ≤ b && b ≤ high.toUInt8

def isDigit (b : UInt8) : Bool := between '0' '9' b

def isLetter (b : UInt8) : Bool := between 'a' 'z' b || between 'A' 'Z' b || b == '_'.toUInt8

/-- What an identifier is made of: neither `$` nor anything that is not ASCII. -/
def isWord (b : UInt8) : Bool := isDigit b || isLetter b

/-- A double or a single quote. -/
def isQuote (b : UInt8) : Bool := b == 0x22 || b == 0x27

/-- String and character literals, and what begins with a digit. -/
def rejected (name : Bytes) : Bool :=
  (name[0]?).any isQuote ||
    (name[0]? == some 'R'.toUInt8 && (name[1]?).any isQuote) ||
    (name[0]? == some 'L'.toUInt8 && (name[1]?).any isQuote) ||
    (name[0]? == some 'U'.toUInt8 && (name[1]?).any isQuote) ||
    (name[0]? == some 'u'.toUInt8 && (name[1]?).any isQuote) ||
    (name[0]? == some 'u'.toUInt8 && name[1]? == some '8'.toUInt8 && (name[2]?).any isQuote) ||
    (name[0]?).any isDigit

/-- The first two loops, on the characters from the last one on: the number `s` of
characters passed, and whether the loop has reached its `break`. -/
def scan (opening closing : UInt8) : Bytes → UInt64 → Nat → Nat × Bool
  | [], _, s => (s, false)
  | b :: back, h, s =>
    if b = closing then scan opening closing back (h + 1) (s + 1)
    else if b = opening then scan opening closing back (h - 1) (s + 1)
    else if h = 0 then (s, true)
    else scan opening closing back h (s + 1)

/-- The first loop takes off what it has passed only at its `break`. -/
def removeCalls (name : Bytes) : Bytes :=
  match scan '('.toUInt8 ')'.toUInt8 name.reverse 0 0 with
  | (s, true) => name.take (name.length - s)
  | (_, false) => name

/-- `s` after the second loop. -/
def templateSuffix (name : Bytes) : Nat :=
  (scan '<'.toUInt8 '>'.toUInt8 name.reverse 0 0).1

/-- The third loop, from `i` down: `remove_prefix` at the first character that is not in a
word. -/
def unqualified (name : Bytes) : Nat → Bytes
  | 0 => name
  | i + 1 => if (name[i]?).any isWord then unqualified name i else name.drop (i + 1)

/-- `nameof::detail::pretty_name`; an invalid name is empty. -/
def prettyName (name : Bytes) (removeTemplateSuffix : Bool) : Bytes :=
  if rejected name then []
  else
    let called := removeCalls name
    let s := templateSuffix called
    let word := unqualified called (called.length - s)
    let word := if removeTemplateSuffix then word.take (word.length - s) else word
    if (word[0]?).any isLetter then word else []

/-- `NAMEOF` and `NAMEOF_FULL`: an empty name does not compile. -/
def nameof (text : Bytes) : Option Bytes :=
  if 0 < (prettyName text true).length then some (prettyName text true) else none

def nameofFull (text : Bytes) : Option Bytes :=
  if 0 < (prettyName text false).length then some (prettyName text false) else none

/-! What comes out is a whole word of the text -/

/-- The byte next to a word, where there is one, is not of a word. -/
def Edge (b : Option UInt8) : Prop := b.any isWord = false

structure IsIdentifier (name : Bytes) : Prop where
  first : (name[0]?).any isLetter = true
  word : ∀ b ∈ name, isWord b = true

theorem IsIdentifier.ne_nil {name : Bytes} (h : IsIdentifier name) : name ≠ [] := by
  rintro rfl
  cases h.first

/-- An identifier in `text` which the text extends on neither side. -/
structure WholeWord (text name : Bytes) : Prop where
  identifier : IsIdentifier name
  inside : ∃ lead tail, text = lead ++ name ++ tail ∧ Edge lead.getLast? ∧ Edge tail.head?

/-- The third loop stops in front of a run of word characters that nothing extends. -/
theorem unqualified_eq_drop (name : Bytes) (i : Nat) :
    ∃ d ≤ i, unqualified name i = name.drop d ∧
      (∀ j, d ≤ j → j < i → (name[j]?).any isWord = true) ∧ ∀ j, d = j + 1 → Edge name[j]? := by
  induction i with
  | zero =>
    exact ⟨0, Nat.le_refl 0, rfl, fun j _ hj => absurd hj (Nat.not_lt_zero j),
      fun j hj => absurd hj.symm (Nat.succ_ne_zero j)⟩
  | succ i ih =>
    by_cases hword : (name[i]?).any isWord = true
    · obtain ⟨d, hd, heq, hrun, hedge⟩ := ih
      refine ⟨d, Nat.le_succ_of_le hd, ?_, fun j hj hlt => ?_, hedge⟩
      · rw [unqualified, if_pos hword, heq]
      · by_cases hji : j = i
        · rw [hji]
          exact hword
        · exact hrun j hj (by omega)
    · refine ⟨i + 1, Nat.le_refl _, by rw [unqualified, if_neg hword], fun j hj hlt => by omega,
        fun j hj => ?_⟩
      obtain rfl : i = j := Nat.succ.inj hj
      exact Bool.eq_false_iff.mpr hword

section
variable {opening closing : UInt8}

/-- A loop that never reaches its `break` passes everything. -/
theorem scan_false {back : Bytes} {h : UInt64} {s s' : Nat}
    (hs : scan opening closing back h s = (s', false)) : s' = s + back.length := by
  induction back generalizing h s with
  | nil => exact (congrArg Prod.fst hs).symm
  | cons b back ih =>
    rw [List.length_cons]
    unfold scan at hs
    split at hs
    · have := ih hs
      omega
    · split at hs
      · have := ih hs
        omega
      · split at hs
        · cases hs
        · have := ih hs
          omega

/-- The last character passed before the `break` is one of the two: no other lets the depth
reach zero. -/
theorem scan_true {back : Bytes} {h : UInt64} {s s' : Nat}
    (hs : scan opening closing back h s = (s', true)) :
    (h = 0 ∧ s' = s) ∨
      ∃ n, s' = s + n + 1 ∧ n < back.length ∧
        (back[n]? = some opening ∨ back[n]? = some closing) := by
  induction back generalizing h s with
  | nil => cases hs
  | cons b back ih =>
    have hlater {k : UInt64} (hk : scan opening closing back k (s + 1) = (s', true))
        (hfirst : k = 0 → b = opening ∨ b = closing) : ∃ n, s' = s + n + 1 ∧
          n < (b :: back).length ∧
            ((b :: back)[n]? = some opening ∨ (b :: back)[n]? = some closing) := by
      obtain ⟨hzero, rfl⟩ | ⟨n, rfl, hn, hb⟩ := ih hk
      · exact ⟨0, rfl, Nat.zero_lt_succ _, by simpa using hfirst hzero⟩
      · exact ⟨n + 1, by omega, Nat.succ_lt_succ hn, by simpa using hb⟩
    unfold scan at hs
    split at hs
    · next heq => exact .inr (hlater hs fun _ => .inr heq)
    · split at hs
      · next heq => exact .inr (hlater hs fun _ => .inl heq)
      · split at hs
        · next hzero =>
          cases hs
          exact .inl ⟨hzero, rfl⟩
        · next hzero => exact .inr (hlater hs fun h => absurd h hzero)

/-- What a loop passes begins at the edge of a word, and it is all of the text when there is
no `break`. -/
theorem scan_suffix (opening closing : UInt8) (hopen : isWord opening = false)
    (hclose : isWord closing = false) (name : Bytes) :
    (scan opening closing name.reverse 0 0).1 ≤ name.length ∧
      ((scan opening closing name.reverse 0 0).2 = false →
        (scan opening closing name.reverse 0 0).1 = name.length) ∧
      ((scan opening closing name.reverse 0 0).2 = true →
        Edge (name.drop (name.length - (scan opening closing name.reverse 0 0).1)).head?) := by
  rcases hscan : scan opening closing name.reverse 0 0 with ⟨s, _ | _⟩
  · have hall := scan_false hscan
    rw [List.length_reverse, Nat.zero_add] at hall
    exact ⟨Nat.le_of_eq hall, fun _ => hall, nofun⟩
  · obtain ⟨-, rfl⟩ | ⟨n, rfl, hn, hb⟩ := scan_true hscan
    · refine ⟨Nat.zero_le _, nofun, fun _ => ?_⟩
      simp only [Nat.sub_zero, List.drop_length, List.head?_nil, Edge, Option.any_none]
    · rw [List.length_reverse] at hn
      refine ⟨by omega, nofun, fun _ => ?_⟩
      rw [List.getElem?_reverse hn] at hb
      rw [List.head?_drop, show name.length - (0 + n + 1) = name.length - 1 - n by omega]
      rcases hb with hb | hb
      · rw [hb]
        exact hopen
      · rw [hb]
        exact hclose

end

theorem templateSuffix_le (name : Bytes) : templateSuffix name ≤ name.length :=
  (scan_suffix _ _ (by decide) (by decide) name).1

/-- The template suffix is the whole text or begins at the edge of a word. -/
theorem templateSuffix_edge (name : Bytes) :
    templateSuffix name = name.length ∨
      Edge (name.drop (name.length - templateSuffix name)).head? := by
  obtain ⟨-, hall, hedge⟩ := scan_suffix '<'.toUInt8 '>'.toUInt8 (by decide) (by decide) name
  cases hflag : (scan '<'.toUInt8 '>'.toUInt8 name.reverse 0 0).2 with
  | false => exact .inl (hall hflag)
  | true => exact .inr (hedge hflag)

/-- The first loop takes a suffix off that begins at the edge of a word. -/
theorem removeCalls_edge (name : Bytes) :
    ∃ calls, name = removeCalls name ++ calls ∧ Edge calls.head? := by
  obtain ⟨-, -, hedge⟩ := scan_suffix '('.toUInt8 ')'.toUInt8 (by decide) (by decide) name
  rcases hscan : scan '('.toUInt8 ')'.toUInt8 name.reverse 0 0 with ⟨s, _ | _⟩
  · refine ⟨[], ?_, rfl⟩
    rw [removeCalls, hscan, List.append_nil]
  · rw [hscan] at hedge
    refine ⟨name.drop (name.length - s), ?_, hedge rfl⟩
    rw [removeCalls, hscan]
    exact (List.take_append_drop _ name).symm

/-- What is left of a word in front of the template suffix. -/
theorem isWord_of_mem {name : Bytes} {s : Nat} (hs : s ≤ name.length) {b : UInt8}
    (hb : b ∈ (unqualified name (name.length - s)).take
      ((unqualified name (name.length - s)).length - s)) : isWord b = true := by
  obtain ⟨d, hd, heq, hrun, -⟩ := unqualified_eq_drop name (name.length - s)
  rw [heq] at hb
  obtain ⟨j, hj⟩ := List.mem_iff_getElem?.mp hb
  rw [List.getElem?_take] at hj
  split at hj
  · next hlt =>
    rw [List.length_drop] at hlt
    rw [List.getElem?_drop] at hj
    have hword := hrun (d + j) (Nat.le_add_right d j) (by omega)
    rw [hj] at hword
    exact hword
  · cases hj

/-- A name that was found, in terms of the three loops. -/
theorem prettyName_eq {text name : Bytes} (hne : name ≠ []) (h : prettyName text true = name) :
    (name[0]?).any isLetter = true ∧
      name = (unqualified (removeCalls text)
        ((removeCalls text).length - templateSuffix (removeCalls text))).take
          ((unqualified (removeCalls text)
            ((removeCalls text).length - templateSuffix (removeCalls text))).length -
              templateSuffix (removeCalls text)) := by
  unfold prettyName at h
  split at h
  · exact absurd h.symm hne
  · simp only [if_true] at h
    split at h
    · next hletter =>
      rw [← h]
      exact ⟨hletter, rfl⟩
    · exact absurd h.symm hne

/-- The name found in any text, with or without template arguments, calls and qualifiers in
it, is a whole word of the text and no part of a longer one. -/
theorem nameof_whole_word {text name : Bytes} (h : nameof text = some name) :
    WholeWord text name := by
  unfold nameof at h
  split at h
  swap
  · cases h
  next hpos =>
  have hpretty : prettyName text true = name := Option.some.inj h
  rw [hpretty] at hpos
  obtain ⟨hletter, hname⟩ := prettyName_eq (List.ne_nil_of_length_pos hpos) hpretty
  obtain ⟨calls, htext, hcalls⟩ := removeCalls_edge text
  generalize removeCalls text = called at hname htext
  have hs := templateSuffix_le called
  have hsuffix := templateSuffix_edge called
  generalize templateSuffix called = s at hname hs hsuffix
  refine ⟨⟨hletter, fun b hb => isWord_of_mem hs (hname ▸ hb)⟩, ?_⟩
  obtain ⟨d, hd, heq, -, hlead⟩ := unqualified_eq_drop called (called.length - s)
  rw [heq, List.length_drop] at hname
  refine ⟨called.take d, called.drop (called.length - s) ++ calls, ?_, ?_, ?_⟩
  · have hrest : called.drop d = name ++ called.drop (called.length - s) := by
      rw [hname, show called.length - d - s = called.length - s - d by omega,
        ← List.drop_take]
      calc called.drop d = (called.take (called.length - s) ++
            called.drop (called.length - s)).drop d := by rw [List.take_append_drop]
        _ = _ := by rw [List.drop_append_of_le_length (by rw [List.length_take]; omega)]
    rw [htext, List.append_assoc, ← List.append_assoc name, ← hrest, ← List.append_assoc,
      List.take_append_drop]
  · cases d with
    | zero => rfl
    | succ j =>
      rw [List.getLast?_take, if_neg (Nat.succ_ne_zero j)]
      have hj : j < called.length := by omega
      have hedge := hlead j rfl
      rw [List.getElem?_eq_getElem hj] at hedge
      simpa [hj] using hedge
  · obtain hall | hedge := hsuffix
    · rw [hname, hall] at hpos
      simp at hpos
    · cases hdrop : called.drop (called.length - s) with
      | nil => exact hcalls
      | cons b front =>
        rw [hdrop] at hedge
        exact hedge

/-- `&Adder::add`. -/
def adderAdd : Bytes := "&Adder::add".toList.map Char.toUInt8

theorem nameof_whole_word_adderAdd :
    nameof adderAdd = some ("add".toList.map Char.toUInt8) ∧
      WholeWord adderAdd ("add".toList.map Char.toUInt8) :=
  ⟨by decide, nameof_whole_word (by decide)⟩

/-! Every method expression has its name -/

section
variable {opening closing : UInt8}

/-- Bytes whose brackets match. -/
inductive Balanced (opening closing : UInt8) : Bytes → Prop
  | nil : Balanced opening closing []
  | other {b : UInt8} {text : Bytes} : b ≠ opening → b ≠ closing →
      Balanced opening closing text → Balanced opening closing (b :: text)
  | group {inner text : Bytes} : Balanced opening closing inner →
      Balanced opening closing text →
        Balanced opening closing (opening :: inner ++ closing :: text)

/-- Bracketed groups one behind the other. -/
inductive Groups (opening closing : UInt8) : Bytes → Prop
  | nil : Groups opening closing []
  | group {inner text : Bytes} : Balanced opening closing inner →
      Groups opening closing text → Groups opening closing (opening :: inner ++ closing :: text)

/-- A closing and then an opening bracket bring the depth back. -/
theorem scan_group (hne : opening ≠ closing) {inner : Bytes} {h : UInt64}
    (hinner : ∀ (rest : Bytes) (s : Nat), scan opening closing (inner.reverse ++ rest) (h + 1) s =
      scan opening closing rest (h + 1) (s + inner.length)) (rest : Bytes) (s : Nat) :
    scan opening closing (closing :: inner.reverse ++ opening :: rest) h s =
      scan opening closing rest h (s + (inner.length + 2)) := by
  rw [List.cons_append, scan, if_pos rfl, hinner, scan, if_neg hne, if_pos rfl]
  congr 1
  · simp
  · omega

/-- Below a closing bracket, at a depth that does not wrap around, matched text is passed. -/
theorem scan_balanced (hne : opening ≠ closing) {text : Bytes}
    (hbal : Balanced opening closing text) {h : UInt64} (hpos : 0 < h.toNat)
    (hsize : h.toNat + text.length < 18446744073709551616) (rest : Bytes) (s : Nat) :
    scan opening closing (text.reverse ++ rest) h s =
      scan opening closing rest h (s + text.length) := by
  induction hbal generalizing h rest s with
  | nil => rfl
  | @other b text hopen hclose _ ih =>
    rw [List.length_cons] at hsize
    rw [List.reverse_cons, List.append_assoc, ih hpos (by omega), List.singleton_append, scan,
      if_neg hclose, if_neg hopen, if_neg]
    · rfl
    · rintro rfl
      exact absurd hpos (Nat.lt_irrefl 0)
  | @group inner text _ _ ihinner ihtext =>
    simp only [List.length_append, List.length_cons] at hsize
    have hdeeper : (h + 1).toNat = h.toNat + 1 := by
      rw [UInt64.toNat_add, UInt64.toNat_one, Nat.mod_eq_of_lt (by omega)]
    have hpassed := scan_group hne (h := h)
      (fun rest s => ihinner (by omega) (by omega) rest s) rest (s + text.length)
    rw [show (opening :: inner ++ closing :: text).reverse ++ rest =
        text.reverse ++ (closing :: inner.reverse ++ opening :: rest) by simp,
      ihtext hpos (by omega), hpassed]
    congr 1
    simp only [List.length_append, List.length_cons]
    omega

theorem scan_groups (hne : opening ≠ closing) {text : Bytes} (hgroups : Groups opening closing text)
    (hsize : text.length < 18446744073709551616) (rest : Bytes) (s : Nat) :
    scan opening closing (text.reverse ++ rest) 0 s =
      scan opening closing rest 0 (s + text.length) := by
  induction hgroups generalizing rest s with
  | nil => rfl
  | @group inner text hinner _ ih =>
    simp only [List.length_append, List.length_cons] at hsize
    have hpassed := scan_group hne (h := 0)
      (fun rest s => scan_balanced hne hinner (h := 0 + 1) (by decide)
        (by rw [show ((0 : UInt64) + 1).toNat = 1 from rfl]; omega) rest s) rest (s + text.length)
    rw [show (opening :: inner ++ closing :: text).reverse ++ rest =
        text.reverse ++ (closing :: inner.reverse ++ opening :: rest) by simp,
      ih (by omega), hpassed]
    congr 1
    simp only [List.length_append, List.length_cons]
    omega

/-- Groups at the end of a text are what a loop passes before its `break`. -/
theorem scan_append (hne : opening ≠ closing) {front groups : Bytes} {b : UInt8}
    (hlast : front.getLast? = some b) (hopen : b ≠ opening) (hclose : b ≠ closing)
    (hgroups : Groups opening closing groups) (hsize : groups.length < 18446744073709551616) :
    scan opening closing (front ++ groups).reverse 0 0 = (groups.length, true) := by
  obtain ⟨init, rfl⟩ := List.getLast?_eq_some_iff.mp hlast
  rw [List.reverse_append, scan_groups hne hgroups hsize, List.reverse_append, Nat.zero_add,
    List.reverse_singleton, List.singleton_append, scan, if_neg hclose, if_neg hopen, if_pos rfl]

end

/-- The third loop stops in front of a word behind which it starts. -/
theorem unqualified_word {lead word : Bytes} (hlead : Edge lead.getLast?)
    (hword : ∀ b ∈ word, isWord b = true) (rest : Bytes) {k : Nat} (hk : k ≤ word.length) :
    unqualified (lead ++ word ++ rest) (lead.length + k) = word ++ rest := by
  induction k with
  | zero =>
    cases hlast : lead.getLast? with
    | none =>
      rw [List.getLast?_eq_none_iff] at hlast
      rw [hlast]
      rfl
    | some b =>
      obtain ⟨init, rfl⟩ := List.getLast?_eq_some_iff.mp hlast
      rw [hlast] at hlead
      have hstop : (((init ++ [b]) ++ word ++ rest)[init.length]?).any isWord = false := by
        rw [List.append_assoc, List.append_assoc, List.getElem?_append_right (Nat.le_refl _),
          Nat.sub_self]
        exact hlead
      rw [Nat.add_zero, List.length_append, List.length_singleton, unqualified,
        if_neg (Bool.eq_false_iff.mp hstop)]
      simp
  | succ k ih =>
    have hpass : ((lead ++ word ++ rest)[lead.length + k]?).any isWord = true := by
      rw [List.append_assoc, List.getElem?_append_right (Nat.le_add_right ..),
        Nat.add_sub_cancel_left, List.getElem?_append_left hk, List.getElem?_eq_getElem hk]
      exact hword _ (List.getElem_mem hk)
    rw [← Nat.add_assoc, unqualified, if_pos hpass, ih (Nat.le_of_succ_le hk)]

theorem Groups.getLast? {opening closing : UInt8} {groups : Bytes}
    (h : Groups opening closing groups) (hne : groups ≠ []) : groups.getLast? = some closing := by
  induction h with
  | nil => exact absurd rfl hne
  | @group inner text _ _ ih =>
    cases text with
    | nil => rw [List.getLast?_append, List.getLast?_singleton, Option.some_or]
    | cons b text =>
      have hlast := ih (List.cons_ne_nil b text)
      rw [List.getLast?_append, List.getLast?_cons_of_ne_nil (List.cons_ne_nil b text), hlast,
        Option.some_or]

/-- An expression with a name in it: qualifiers or an operator in front, template arguments
and calls behind. -/
structure NamedExpr where
  qualifier : Bytes
  name : Bytes
  templateArgs : Bytes
  calls : Bytes
  edge : Edge qualifier.getLast?
  identifier : IsIdentifier name
  matchedArgs : Groups '<'.toUInt8 '>'.toUInt8 templateArgs
  matchedCalls : Groups '('.toUInt8 ')'.toUInt8 calls
  noLiteral : rejected (qualifier ++ name ++ templateArgs ++ calls) = false
  argsSize : templateArgs.length < 18446744073709551616
  callsSize : calls.length < 18446744073709551616

namespace NamedExpr

def text (e : NamedExpr) : Bytes := e.qualifier ++ e.name ++ e.templateArgs ++ e.calls

/-- The last byte of the name. -/
theorem getLast?_name (e : NamedExpr) : ∃ b, (e.qualifier ++ e.name).getLast? = some b ∧
    isWord b = true := by
  have hne := e.identifier.ne_nil
  refine ⟨e.name.getLast hne, ?_, e.identifier.word _ (List.getLast_mem hne)⟩
  rw [List.getLast?_append, List.getLast?_eq_some_getLast hne, Option.some_or]

theorem ne_of_isWord {b c : UInt8} (hb : isWord b = true) (hc : isWord c = false) : b ≠ c := by
  rintro rfl
  rw [hb] at hc
  cases hc

theorem removeCalls_text (e : NamedExpr) :
    removeCalls e.text = e.qualifier ++ e.name ++ e.templateArgs := by
  have hlast : ∃ b, (e.qualifier ++ e.name ++ e.templateArgs).getLast? = some b ∧
      b ≠ '('.toUInt8 ∧ b ≠ ')'.toUInt8 := by
    by_cases hargs : e.templateArgs = []
    · obtain ⟨b, hb, hword⟩ := e.getLast?_name
      rw [hargs, List.append_nil]
      exact ⟨b, hb, ne_of_isWord hword (by decide), ne_of_isWord hword (by decide)⟩
    · refine ⟨'>'.toUInt8, ?_, by decide, by decide⟩
      rw [List.getLast?_append, e.matchedArgs.getLast? hargs, Option.some_or]
  obtain ⟨b, hb, hopen, hclose⟩ := hlast
  rw [removeCalls, text, scan_append (by decide) hb hopen hclose e.matchedCalls e.callsSize]
  exact List.take_left' (by simp only [List.length_append]; omega)

theorem templateSuffix_text (e : NamedExpr) :
    templateSuffix (e.qualifier ++ e.name ++ e.templateArgs) = e.templateArgs.length := by
  obtain ⟨b, hb, hword⟩ := e.getLast?_name
  rw [templateSuffix, scan_append (by decide) hb (ne_of_isWord hword (by decide))
    (ne_of_isWord hword (by decide)) e.matchedArgs e.argsSize]

theorem unqualified_text (e : NamedExpr) :
    unqualified (e.qualifier ++ e.name ++ e.templateArgs)
      ((e.qualifier ++ e.name ++ e.templateArgs).length - e.templateArgs.length) =
        e.name ++ e.templateArgs := by
  rw [List.length_append, Nat.add_sub_cancel, List.length_append]
  exact unqualified_word e.edge e.identifier.word e.templateArgs (Nat.le_refl _)

/-- Through any qualifiers, any nesting of template arguments and any calls behind it, the
name comes out, and with the template arguments when they are asked for. -/
theorem nameof_text (e : NamedExpr) :
    nameof e.text = some e.name ∧ nameofFull e.text = some (e.name ++ e.templateArgs) := by
  have hpos := List.length_pos_iff.mpr e.identifier.ne_nil
  have hfirst := e.identifier.first
  have hfirst' : ((e.name ++ e.templateArgs)[0]?).any isLetter = true := by
    rw [List.getElem?_append_left hpos]
    exact hfirst
  have hliteral : rejected e.text = false := e.noLiteral
  have htake : (e.name ++ e.templateArgs).take
      ((e.name ++ e.templateArgs).length - e.templateArgs.length) = e.name :=
    List.take_left' (by rw [List.length_append, Nat.add_sub_cancel])
  have hshort : prettyName e.text true = e.name := by
    simp only [prettyName, hliteral, removeCalls_text, templateSuffix_text, unqualified_text,
      htake, if_true]
    exact if_pos hfirst
  have hfull : prettyName e.text false = e.name ++ e.templateArgs := by
    simp only [prettyName, hliteral, removeCalls_text, templateSuffix_text, unqualified_text]
    exact if_pos hfirst'
  rw [nameof, nameofFull, hshort, hfull]
  exact ⟨if_pos hpos, if_pos (by rw [List.length_append]; omega)⟩

end NamedExpr

end Dousi.Core.Nameof
