import Mathlib.Computability.Language
import Mathlib.Data.BitVec

namespace KernelThreads.Grep

open Computability

/-! The regular expressions of `grep.c`.  A string is the list of its bytes up to
the NUL. -/

abbrev Text := List (BitVec 8)

abbrev DOT : BitVec 8 := 46
abbrev STAR : BitVec 8 := 42
abbrev CARET : BitVec 8 := 94
abbrev DOLLAR : BitVec 8 := 36

/-- `matchstar`; `here` is `matchhere` of the rest of the expression. -/
def matchstar (here : Text → Bool) (c : BitVec 8) : Text → Bool
  | [] => here []
  | t :: text => here (t :: text) || ((t = c || c = DOT) && matchstar here c text)

/-- The last test of `matchhere`: one character, then the rest of the expression. -/
def matchone (here : Text → Bool) (c : BitVec 8) : Text → Bool
  | [] => false
  | t :: text => (c = DOT || c = t) && here text

def matchhere : Text → Text → Bool
  | [] => fun _ => true
  | [c] => fun text => if c = DOLLAR then text.isEmpty else matchone (fun _ => true) c text
  | c :: d :: re => fun text =>
      if d = STAR then matchstar (matchhere re) c text
      else matchone (matchhere (d :: re)) c text

def matchfrom (re : Text) : Text → Bool
  | [] => matchhere re []
  | t :: text => matchhere re (t :: text) || matchfrom re text

def matchText : Text → Text → Bool
  | [], text => matchfrom [] text
  | c :: re, text => if c = CARET then matchhere re text else matchfrom (c :: re) text

inductive Item where
  | one (c : BitVec 8)
  | star (c : BitVec 8)

/-- An expression: is it bound to the start and to the end of the text? -/
structure Regexp where
  atStart : Bool
  items : List Item
  atEnd : Bool

def parseItems : Text → List Item × Bool
  | [] => ([], false)
  | [c] => if c = DOLLAR then ([], true) else ([.one c], false)
  | c :: d :: re =>
      if d = STAR then (.star c :: (parseItems re).1, (parseItems re).2)
      else (.one c :: (parseItems (d :: re)).1, (parseItems (d :: re)).2)

def parse : Text → Regexp
  | [] => ⟨false, [], false⟩
  | c :: re =>
      if c = CARET then ⟨true, (parseItems re).1, (parseItems re).2⟩
      else ⟨false, (parseItems (c :: re)).1, (parseItems (c :: re)).2⟩

def charLang (c : BitVec 8) : Language (BitVec 8) :=
  {text | ∃ t, text = [t] ∧ (c = DOT ∨ c = t)}

def Item.lang : Item → Language (BitVec 8)
  | .one c => charLang c
  | .star c => (charLang c)∗

def langOf (items : List Item) : Language (BitVec 8) := (items.map Item.lang).prod

/-- A part of the text is in the language, at the start or the end where the
expression says so. -/
def Regexp.Matches (r : Regexp) (text : Text) : Prop :=
  ∃ before part after, text = before ++ (part ++ after) ∧ part ∈ langOf r.items ∧
    (r.atStart = true → before = []) ∧ (r.atEnd = true → after = [])

theorem mem_charLang {c : BitVec 8} {text : Text} :
    text ∈ charLang c ↔ ∃ t, text = [t] ∧ (c = DOT ∨ c = t) := Iff.rfl

theorem mem_langOf_nil {text : Text} : text ∈ langOf [] ↔ text = [] :=
  Language.mem_one text

theorem mem_langOf_cons {item : Item} {items : List Item} {text : Text} :
    text ∈ langOf (item :: items) ↔
      ∃ part ∈ item.lang, ∃ rest ∈ langOf items, part ++ rest = text := by
  unfold langOf
  rw [List.map_cons, List.prod_cons, Language.mem_mul]

theorem mem_star {c : BitVec 8} {text : Text} :
    text ∈ (charLang c)∗ ↔ ∀ t ∈ text, c = DOT ∨ c = t := by
  rw [Language.mem_kstar]
  constructor
  · rintro ⟨parts, rfl, hparts⟩ t ht
    obtain ⟨part, hpart, hin⟩ := List.mem_flatten.mp ht
    obtain ⟨u, rfl, hu⟩ := mem_charLang.mp (hparts part hpart)
    rw [List.mem_singleton.mp hin]
    exact hu
  · intro hall
    refine ⟨text.map fun t => [t], ?_, ?_⟩
    · induction text with
      | nil => rfl
      | cons t text ih =>
          have htail := ih fun u hu => hall u (List.mem_cons_of_mem t hu)
          rw [List.map_cons, List.flatten_cons, ← htail]
          rfl
    · intro part hpart
      obtain ⟨t, ht, rfl⟩ := List.mem_map.mp hpart
      exact mem_charLang.mpr ⟨t, rfl, hall t ht⟩

/-- The text starts with a string of the language, and ends with it where it has to. -/
def Starts (items : List Item) (atEnd : Bool) (text : Text) : Prop :=
  ∃ part after, text = part ++ after ∧ part ∈ langOf items ∧ (atEnd = true → after = [])

theorem starts_nil {atEnd : Bool} {text : Text} :
    Starts [] atEnd text ↔ (atEnd = true → text = []) := by
  constructor
  · rintro ⟨part, after, rfl, hpart, hend⟩ hat
    rw [mem_langOf_nil] at hpart
    rw [hpart, hend hat]
    rfl
  · intro hend
    exact ⟨[], text, rfl, mem_langOf_nil.mpr rfl, hend⟩

theorem starts_cons {item : Item} {items : List Item} {atEnd : Bool} {text : Text} :
    Starts (item :: items) atEnd text ↔
      ∃ part rest, text = part ++ rest ∧ part ∈ item.lang ∧ Starts items atEnd rest := by
  constructor
  · rintro ⟨whole, after, rfl, hwhole, hend⟩
    obtain ⟨part, hpart, more, hmore, rfl⟩ := mem_langOf_cons.mp hwhole
    exact ⟨part, more ++ after, List.append_assoc .., hpart, more, after, rfl, hmore, hend⟩
  · rintro ⟨part, rest, rfl, hpart, more, after, rfl, hmore, hend⟩
    exact ⟨part ++ more, after, (List.append_assoc ..).symm,
      mem_langOf_cons.mpr ⟨part, hpart, more, hmore, rfl⟩, hend⟩

theorem matchone_iff {here : Text → Bool} {c : BitVec 8} {items : List Item} {atEnd : Bool}
    (hhere : ∀ text, here text = true ↔ Starts items atEnd text) (text : Text) :
    matchone here c text = true ↔ Starts (.one c :: items) atEnd text := by
  rw [starts_cons]
  cases text with
  | nil =>
      refine ⟨fun hfalse => absurd hfalse (by simp [matchone]), ?_⟩
      rintro ⟨part, rest, hnil, hpart, -⟩
      obtain ⟨t, rfl, -⟩ := mem_charLang.mp hpart
      cases hnil
  | cons t text =>
      simp only [matchone, Bool.and_eq_true, Bool.or_eq_true, decide_eq_true_eq, hhere]
      constructor
      · rintro ⟨hc, hrest⟩
        exact ⟨[t], text, rfl, mem_charLang.mpr ⟨t, rfl, hc⟩, hrest⟩
      · rintro ⟨part, rest, heq, hpart, hrest⟩
        obtain ⟨u, rfl, hu⟩ := mem_charLang.mp hpart
        cases heq
        exact ⟨hu, hrest⟩

theorem matchstar_iff {here : Text → Bool} {c : BitVec 8} {items : List Item} {atEnd : Bool}
    (hhere : ∀ text, here text = true ↔ Starts items atEnd text) (text : Text) :
    matchstar here c text = true ↔ Starts (.star c :: items) atEnd text := by
  rw [starts_cons]
  induction text with
  | nil =>
      rw [matchstar, hhere]
      constructor
      · intro hrest
        exact ⟨[], [], rfl, mem_star.mpr (by simp), hrest⟩
      · rintro ⟨part, rest, hnil, -, hrest⟩
        obtain ⟨rfl, rfl⟩ := List.append_eq_nil_iff.mp hnil.symm
        exact hrest
  | cons t text ih =>
      simp only [matchstar, Bool.and_eq_true, Bool.or_eq_true, decide_eq_true_eq, hhere, ih]
      constructor
      · rintro (hnone | ⟨hc, part, rest, rfl, hpart, hrest⟩)
        · exact ⟨[], t :: text, rfl, mem_star.mpr (by simp), hnone⟩
        · refine ⟨t :: part, rest, rfl, mem_star.mpr fun u hu => ?_, hrest⟩
          rcases List.mem_cons.mp hu with rfl | hin
          · exact hc.symm.imp id Eq.symm
          · exact mem_star.mp hpart u hin
      · rintro ⟨part, rest, heq, hpart, hrest⟩
        cases part with
        | nil =>
            rw [heq]
            exact .inl hrest
        | cons u part =>
            cases heq
            have hall := mem_star.mp hpart
            refine .inr ⟨(hall t (List.mem_cons_self ..)).symm.imp Eq.symm id, part, rest, rfl,
              mem_star.mpr fun v hv => hall v (List.mem_cons_of_mem t hv), hrest⟩

theorem matchhere_iff (re text : Text) :
    matchhere re text = true ↔ Starts (parseItems re).1 (parseItems re).2 text := by
  induction re using matchhere.induct generalizing text with
  | case1 => simp [matchhere, parseItems, starts_nil]
  | case2 c =>
      unfold matchhere parseItems
      by_cases hend : c = DOLLAR
      · rw [if_pos hend, if_pos hend, starts_nil, List.isEmpty_iff]
        simp
      · rw [if_neg hend, if_neg hend]
        exact matchone_iff (fun rest => by simp [starts_nil]) text
  | case3 c d re ihstar ihone =>
      unfold matchhere parseItems
      by_cases hstar : d = STAR
      · rw [if_pos hstar, if_pos hstar]
        exact matchstar_iff ihstar text
      · rw [if_neg hstar, if_neg hstar]
        exact matchone_iff ihone text

theorem matchfrom_iff (re text : Text) :
    matchfrom re text = true ↔ ∃ before rest, text = before ++ rest ∧
      Starts (parseItems re).1 (parseItems re).2 rest := by
  induction text with
  | nil =>
      rw [matchfrom, matchhere_iff]
      constructor
      · intro hrest
        exact ⟨[], [], rfl, hrest⟩
      · rintro ⟨before, rest, hnil, hrest⟩
        obtain ⟨rfl, rfl⟩ := List.append_eq_nil_iff.mp hnil.symm
        exact hrest
  | cons t text ih =>
      rw [matchfrom, Bool.or_eq_true, matchhere_iff, ih]
      constructor
      · rintro (hhere | ⟨before, rest, rfl, hrest⟩)
        · exact ⟨[], t :: text, rfl, hhere⟩
        · exact ⟨t :: before, rest, rfl, hrest⟩
      · rintro ⟨before, rest, heq, hrest⟩
        cases before with
        | nil =>
            rw [heq]
            exact .inl hrest
        | cons u before =>
            cases heq
            exact .inr ⟨before, rest, rfl, hrest⟩

/-- `match` is true of a text if and only if a part of it is in the language. -/
theorem matchText_iff (re text : Text) :
    matchText re text = true ↔ (parse re).Matches text := by
  have hfrom : ∀ re, matchfrom re text = true ↔
      Regexp.Matches ⟨false, (parseItems re).1, (parseItems re).2⟩ text := by
    intro re
    rw [matchfrom_iff]
    constructor
    · rintro ⟨before, rest, rfl, part, after, rfl, hpart, hend⟩
      exact ⟨before, part, after, rfl, hpart, nofun, hend⟩
    · rintro ⟨before, part, after, rfl, hpart, -, hend⟩
      exact ⟨before, part ++ after, rfl, part, after, rfl, hpart, hend⟩
  cases re with
  | nil => exact hfrom []
  | cons c re =>
      rw [matchText, parse]
      by_cases hstart : c = CARET
      · rw [if_pos hstart, if_pos hstart, matchhere_iff]
        constructor
        · rintro ⟨part, after, rfl, hpart, hend⟩
          exact ⟨[], part, after, rfl, hpart, fun _ => rfl, hend⟩
        · rintro ⟨before, part, after, rfl, hpart, hbefore, hend⟩
          rw [hbefore rfl]
          exact ⟨part, after, rfl, hpart, hend⟩
      · rw [if_neg hstart, if_neg hstart]
        exact hfrom (c :: re)

end KernelThreads.Grep
