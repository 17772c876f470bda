/-
  MixinCss.Proofs.Token.Locality

  How far a token looks ahead. Scanners see all the bytes that follow, but what
  they recognize depends on few of them: a name, a number or a mark is settled
  where a byte follows that can go on with none of them, at a halt. A string, an
  address or a comment goes on across halts, but then to its own end.

  So a token that lies inside of `w` when `x` follows is the same token when `y`
  follows, if both begin with a halt (`scan_append`). Other bytes end a name as
  well, and they will do where they go on with nothing else that `w` ends with:
  a parenthesis makes a function of a name, a point or a percent sign belongs to
  the number in front of it, and some marks have a second byte (`Exchange`). An
  escape takes the byte behind its backslash whatever it is, and the white space
  behind its digits; where `w` may end inside of an escape, `y` has to offer it
  no more than `x`.

  Each scanner has its lemma. Those that know no escapes are settled by `w`
  alone; for the others it is assumed that what they take lies inside of `w`.
-/

import MixinCss.Token.Lexer

namespace MixinCss.Lexer

/-! ## Ends of names and numbers -/

/-- White space, the colon, the semicolon and the braces. -/
def stops : List UInt8 :=
  [ascii ' ', ascii '\t', ascii '\n', ascii '\r', 0x0C, ascii ':', ascii ';', 0x7B, 0x7D]

/-- A text that begins with a stop. -/
inductive Stopped : Text → Prop where
  | intro {c : UInt8} {rest : Text} (h : c ∈ stops) : Stopped (c :: rest)

/-- The stops and other bytes that no scanner looks for behind what it has. -/
def halts : List UInt8 :=
  stops ++ [ascii ')', ascii '[', ascii ']', ascii ',', ascii '/', ascii '#', ascii '@',
    ascii '"', ascii '\'', ascii '&', ascii '~', ascii '^', ascii '$', ascii '<']

/-- The bytes at which names and digits end: the halts, and bytes that go on with
    some of what may stand in front of them. -/
def ends : List UInt8 :=
  halts ++ [ascii '(', ascii '.', ascii '%', ascii '=', ascii '|', ascii '>', ascii '*', ascii '!']

/-- A text that is empty or begins with such a byte. -/
inductive Ended : Text → Prop where
  | nil : Ended []
  | intro {c : UInt8} {rest : Text} (h : c ∈ ends) : Ended (c :: rest)

theorem Stopped.append {x : Text} (h : Stopped x) (y : Text) : Stopped (x ++ y) := by
  cases h with
  | intro hc => exact .intro hc

/-- A text that does not go on with bytes of a class in which no end is. -/
theorem Ended.forall_head {x : Text} (h : Ended x) {p : UInt8 → Bool} (hp : ends.any p = false) :
    ∀ c ∈ x.head?, p c = false := by
  cases h with
  | nil => exact fun _ hc => nomatch hc
  | intro hend =>
    rintro _ ⟨⟩
    exact Bool.eq_false_iff.mpr (List.any_eq_false.mp hp _ hend)

theorem Ended.head?_ne {x : Text} (h : Ended x) {b : UInt8} (hb : b ∉ ends) :
    x.head? ≠ some b := by
  cases h with
  | nil => exact fun heq => nomatch heq
  | intro hend =>
    intro heq
    cases heq
    exact hb hend

/-! ## Runs and single bytes -/

section Runs

variable {p : UInt8 → Bool} {x y : Text}

theorem run_le_length (p : UInt8 → Bool) (w : Text) : run p w ≤ w.length :=
  (List.takeWhile_sublist p).length_le

theorem run_cons_of_pos {b : UInt8} {w : Text} (h : p b = true) :
    run p (b :: w) = run p w + 1 := by
  unfold run
  rw [List.takeWhile_cons_of_pos h, List.length_cons]

theorem run_cons_of_neg {b : UInt8} {w : Text} (h : p b = false) : run p (b :: w) = 0 := by
  unfold run
  rw [List.takeWhile_cons_of_neg (by simp [h])]
  rfl

/-- A run ends where a byte follows that does not belong to it. -/
theorem run_append (hx : ∀ c ∈ x.head?, p c = false) (w : Text) : run p (w ++ x) = run p w := by
  induction w with
  | nil =>
    cases x with
    | nil => rfl
    | cons c x => exact run_cons_of_neg (hx c rfl)
  | cons b w ih =>
    rw [List.cons_append]
    cases hb : p b with
    | true => rw [run_cons_of_pos hb, run_cons_of_pos hb, ih]
    | false => rw [run_cons_of_neg hb, run_cons_of_neg hb]

/-- A run that ends inside of `w` does not depend on what follows. -/
theorem run_append_of_lt {w : Text} (h : run p (w ++ x) < w.length) (y : Text) :
    run p (w ++ y) = run p (w ++ x) := by
  induction w with
  | nil => exact absurd h (Nat.not_lt_zero _)
  | cons b w ih =>
    rw [List.cons_append] at h ⊢
    rw [List.cons_append]
    cases hb : p b with
    | true =>
      rw [run_cons_of_pos hb] at h ⊢
      rw [run_cons_of_pos hb, ih (Nat.lt_of_succ_lt_succ h)]
    | false => rw [run_cons_of_neg hb, run_cons_of_neg hb]

theorem one_le_length (p : UInt8 → Bool) (w : Text) : one p w ≤ w.length := by
  cases w with
  | nil => exact Nat.le_refl 0
  | cons b w =>
    rw [one, List.length_cons]
    split <;> omega

theorem one_append (hx : ∀ c ∈ x.head?, p c = false) (w : Text) : one p (w ++ x) = one p w := by
  cases w with
  | nil =>
    cases x with
    | nil => rfl
    | cons c x =>
      have hfalse := hx c rfl
      simp [one, hfalse]
  | cons b w => rfl

/-- The head of a text does not depend on what follows its first byte. -/
theorem one_append_of_ne_nil (p : UInt8 → Bool) {v : Text} (h : v ≠ []) (x y : Text) :
    one p (v ++ y) = one p (v ++ x) := by
  cases v with
  | nil => exact absurd rfl h
  | cons b v => rfl

theorem drop_ne_nil {w : Text} {n : Nat} (h : n < w.length) : w.drop n ≠ [] := by
  intro hnil
  have hlength := congrArg List.length hnil
  rw [List.length_drop, List.length_nil] at hlength
  omega

theorem run_of_forall_mem {w : Text} (h : ∀ c ∈ w, p c = true) : run p w = w.length := by
  rw [run, ← List.append_nil w, List.takeWhile_append_of_pos h]
  rfl

/-- A run that takes the whole text. -/
theorem forall_mem_of_length_le_run {w : Text} (h : w.length ≤ run p w) : ∀ c ∈ w, p c = true := by
  have hwhole : w.takeWhile p = w := (List.takeWhile_prefix p).eq_of_length_le h
  intro c hc
  rw [← hwhole] at hc
  exact List.all_eq_true.mp List.all_takeWhile c hc

end Runs

/-! ## Numbers -/

section Numbers

variable {x : Text}

/-- A text that begins with no byte of a number, except possibly with a point. -/
structure Unnumbered (x : Text) : Prop where
  digit : ∀ c ∈ x.head?, Byte.isDigit c = false
  sign : ∀ c ∈ x.head?, isSign c = false
  exponent : exponent x = 0

theorem exponent_append (hx : Unnumbered x) (w : Text) : exponent (w ++ x) = exponent w := by
  cases w with
  | nil => exact hx.exponent
  | cons b w =>
    have hdigits := run_append hx.digit (w.drop (one isSign w))
    simp only [List.cons_append, exponent, one_append hx.sign,
      List.drop_append_of_le_length (one_le_length isSign w), hdigits]

theorem fraction_append (hx : Unnumbered x) {w : Text} (hpoint : w = [] → fraction x = 0) :
    fraction (w ++ x) = fraction w := by
  cases w with
  | nil => exact hpoint rfl
  | cons b w => simp only [List.cons_append, fraction, run_append hx.digit]

theorem exponent_le_length (w : Text) : exponent w ≤ w.length := by
  cases w with
  | nil => exact Nat.le_refl 0
  | cons b w =>
    have hsign := one_le_length isSign w
    have hdigits := run_le_length Byte.isDigit (w.drop (one isSign w))
    rw [List.length_drop] at hdigits
    unfold exponent
    dsimp only
    rw [List.length_cons]
    split
    · split <;> omega
    · omega

theorem fraction_le_length (w : Text) : fraction w ≤ w.length := by
  cases w with
  | nil => exact Nat.le_refl 0
  | cons b w =>
    have hdigits := run_le_length Byte.isDigit w
    unfold fraction
    dsimp only
    rw [List.length_cons]
    split
    · split <;> omega
    · omega

theorem number_le_length (w : Text) : number w ≤ w.length := by
  have hsign := one_le_length isSign w
  have hwhole := run_le_length Byte.isDigit (w.drop (one isSign w))
  rw [List.length_drop] at hwhole
  have hpart := fraction_le_length
    (w.drop (one isSign w + run Byte.isDigit (w.drop (one isSign w))))
  rw [List.length_drop] at hpart
  unfold number
  dsimp only
  split
  · omega
  · have hmark := exponent_le_length
      (w.drop (one isSign w + run Byte.isDigit (w.drop (one isSign w)) +
        fraction (w.drop (one isSign w + run Byte.isDigit (w.drop (one isSign w))))))
    rw [List.length_drop] at hmark
    omega

/-- The sign and the digits that a number begins with. -/
def whole (w : Text) : Nat := one isSign w + run Byte.isDigit (w.drop (one isSign w))

theorem whole_le_length (w : Text) : whole w ≤ w.length := by
  have hsign := one_le_length isSign w
  have hdigits := run_le_length Byte.isDigit (w.drop (one isSign w))
  rw [List.length_drop] at hdigits
  unfold whole
  omega

theorem whole_eq_length_iff {w : Text} :
    whole w = w.length ↔ ∀ c ∈ w.drop (one isSign w), Byte.isDigit c = true := by
  have hsign := one_le_length isSign w
  unfold whole
  constructor
  · intro h
    refine forall_mem_of_length_le_run ?_
    rw [List.length_drop]
    omega
  · intro h
    rw [run_of_forall_mem h, List.length_drop]
    omega

/-- A number is settled by what stands in front of such a text, if no point
    follows its digits. -/
theorem number_append (hx : Unnumbered x) {w : Text}
    (hpoint : whole w = w.length → fraction x = 0) : number (w ++ x) = number w := by
  have hend : w.drop (whole w) = [] → fraction x = 0 := fun hnil =>
    hpoint (Nat.le_antisymm (whole_le_length w) (List.drop_eq_nil_iff.mp hnil))
  have hsign := one_le_length isSign w
  have hwhole := run_le_length Byte.isDigit (w.drop (one isSign w))
  have hpart := fraction_le_length (w.drop (whole w))
  unfold whole at hend hpart
  rw [List.length_drop] at hwhole hpart
  simp only [number, one_append hx.sign, List.drop_append_of_le_length hsign,
    run_append hx.digit]
  rw [List.drop_append_of_le_length (by omega), fraction_append hx hend]
  rw [List.drop_append_of_le_length (by omega), exponent_append hx]

theorem fraction_eq_zero {x : Text} (h : x.head? ≠ some (ascii '.')) : fraction x = 0 := by
  cases x with
  | nil => rfl
  | cons c x =>
    rw [fraction]
    exact if_neg fun heq => h (by rw [heq]; rfl)

theorem exponent_eq_zero {x : Text} (h : ∀ c ∈ x.head?, Byte.lower c ≠ ascii 'e') :
    exponent x = 0 := by
  cases x with
  | nil => rfl
  | cons c x =>
    rw [exponent]
    exact if_neg (h c rfl)

theorem Ended.unnumbered (h : Ended x) : Unnumbered x := by
  refine ⟨h.forall_head (by decide), h.forall_head (by decide), exponent_eq_zero fun c hc => ?_⟩
  have hmark := h.forall_head (p := fun c => Byte.lower c == ascii 'e') (by decide +kernel) c hc
  exact beq_eq_false_iff_ne.mp hmark

end Numbers

/-! ## Exchange -/

/-- The text ends with a backslash and hexadecimal digits only, or none: more of
    what follows may belong to the escape. -/
def OpenEscape (w : Text) : Prop :=
  ∃ digits, ascii '\\' :: digits <:+ w ∧ ∀ c ∈ digits, Byte.isHexDigit c = true

/-- An open escape takes no more of `y` than of `x`. -/
structure OffersLess (x y : Text) : Prop where
  none : escape? x = none → escape? y = none
  space : one isSpace y ≤ one isSpace x

/-- `y` can take the place of `x` behind `w`, as far as names and escapes go. -/
structure NameExchange (w x y : Text) : Prop where
  left : Ended x
  right : Ended y
  nonempty : x ≠ []
  paren : x.head? = some (ascii '(') ↔ y.head? = some (ascii '(')
  escapes : OpenEscape w → OffersLess x y

/-- Marks of several bytes, cut in front of one that ends a name. -/
def joints : List (Text × UInt8) :=
  [([ascii '$'], ascii '='), ([ascii '*'], ascii '='), ([ascii '^'], ascii '='),
    ([ascii '~'], ascii '='), ([ascii '|'], ascii '='), ([ascii '|'], ascii '|'),
    ([ascii '/'], ascii '*'), ([ascii '-', ascii '-'], ascii '>'), ([ascii '<'], ascii '!')]

/-- `y` can take the place of `x` behind the token that `w` begins with: numbers
    and marks do not go on with one of them only. -/
structure Exchange (w x y : Text) : Prop extends NameExchange w x y where
  point : whole w = w.length → x.head? ≠ some (ascii '.') ∧ y.head? ≠ some (ascii '.')
  percent : number w = w.length → (x.head? = some (ascii '%') ↔ y.head? = some (ascii '%'))
  marks : ∀ j ∈ joints, w = j.1 → (x.head? = some j.2 ↔ y.head? = some j.2)
  opening : w = [ascii '<'] → x.head? ≠ some (ascii '!')

/-- The byte may go on with what the text ends with, a name, a number or a mark. -/
def Joins (w : Text) (c : UInt8) : Prop :=
  c = ascii '(' ∨ c = ascii '%' ∨ (c = ascii '.' ∧ whole w = w.length) ∨
    ∃ j ∈ joints, w <:+ j.1 ∧ c = j.2

instance (w : Text) (c : UInt8) : Decidable (Joins w c) := inferInstanceAs (Decidable (_ ∨ _))

/-- An open escape is found from the end. -/
theorem openEscape_iff {w : Text} :
    OpenEscape w ↔ (w.reverse.dropWhile Byte.isHexDigit).head? = some (ascii '\\') := by
  constructor
  · rintro ⟨digits, ⟨front, rfl⟩, hdigits⟩
    have hall : ∀ c ∈ digits.reverse, Byte.isHexDigit c = true := fun c hc =>
      hdigits c (List.mem_reverse.mp hc)
    rw [List.reverse_append, List.reverse_cons, List.append_assoc, List.singleton_append,
      List.dropWhile_append_of_pos hall, List.dropWhile_cons_of_neg (by decide)]
    rfl
  · intro h
    obtain ⟨rest, hrest⟩ := List.head?_eq_some_iff.mp h
    refine ⟨(w.reverse.takeWhile Byte.isHexDigit).reverse, ⟨rest.reverse, ?_⟩, fun c hc => ?_⟩
    · have hsplit := List.takeWhile_append_dropWhile (p := Byte.isHexDigit) (l := w.reverse)
      have hback := congrArg List.reverse hsplit
      rw [hrest, List.reverse_append, List.reverse_cons, List.reverse_reverse,
        ← List.append_cons] at hback
      exact hback
    · exact List.all_eq_true.mp List.all_takeWhile c (List.mem_reverse.mp hc)

instance (w : Text) : Decidable (OpenEscape w) := decidable_of_iff _ openEscape_iff.symm

/-- What a byte joins is at the end of the text. -/
theorem Joins.of_suffix {v w : Text} {c : UInt8} (h : Joins w c) (hsuffix : v <:+ w) :
    Joins v c := by
  rcases h with hparen | hpercent | ⟨hpoint, hwhole⟩ | ⟨j, hj, hend, hc⟩
  · exact .inl hparen
  · exact .inr (.inl hpercent)
  · refine .inr (.inr (.inl ⟨hpoint, ?_⟩))
    obtain ⟨front, rfl⟩ := hsuffix
    cases front with
    | nil => exact hwhole
    | cons b front =>
      -- Only the first byte may be a sign, and all others are digits.
      rw [whole_eq_length_iff] at hwhole ⊢
      intro d hd
      have hmem : d ∈ front ++ v := List.mem_append_right front (List.mem_of_mem_drop hd)
      refine hwhole d ?_
      rw [List.cons_append, one]
      split
      · exact hmem
      · exact List.mem_cons_of_mem b hmem
  · exact .inr (.inr (.inr ⟨j, hj, hsuffix.trans hend, hc⟩))

theorem OpenEscape.of_suffix {v w : Text} (h : OpenEscape v) (hsuffix : v <:+ w) :
    OpenEscape w := by
  obtain ⟨digits, hdigits, hall⟩ := h
  exact ⟨digits, hdigits.trans hsuffix, hall⟩

theorem OpenEscape.backslash_mem {w : Text} (h : OpenEscape w) : ascii '\\' ∈ w := by
  obtain ⟨digits, hdigits, -⟩ := h
  exact hdigits.subset List.mem_cons_self

/-- Only the first byte of a text counts for an escape that is still open. -/
theorem offersLess_of_head? {x y : Text} (h : x.head? = y.head?) : OffersLess x y := by
  cases x with
  | nil =>
    cases y with
    | nil => exact ⟨id, Nat.le_refl _⟩
    | cons d y => cases h
  | cons c x =>
    cases y with
    | nil => cases h
    | cons d y =>
      cases h
      refine ⟨fun hnone => ?_, Nat.le_refl _⟩
      rw [escape?] at hnone ⊢
      split at hnone
      · exact if_pos ‹_›
      · split at hnone
        · cases hnone
        · split at hnone <;> cases hnone

theorem ended_of_head {x : Text} (h : ∀ c ∈ x.head?, c ∈ ends) : Ended x := by
  cases x with
  | nil => exact .nil
  | cons c x => exact .intro (h c rfl)

theorem mem_ends_of_mem_halts {c : UInt8} (h : c ∈ halts) : c ∈ ends :=
  List.mem_append_left _ h

/-- Any two halts will do, except behind an open escape. -/
theorem exchange_of_halts {w x y : Text} (hne : x ≠ []) (hx : ∀ c ∈ x.head?, c ∈ halts)
    (hy : ∀ c ∈ y.head?, c ∈ halts) (h : OpenEscape w → OffersLess x y) : Exchange w x y := by
  have hnot : ∀ {z : Text}, (∀ c ∈ z.head?, c ∈ halts) → ∀ {b : UInt8}, b ∉ halts →
      z.head? ≠ some b := fun hz _ hb heq => hb (hz _ heq)
  have hjoints : ∀ j ∈ joints, j.2 ∉ halts := by decide
  refine ⟨⟨?_, ?_, hne, ?_, h⟩, ?_, ?_, ?_, ?_⟩
  · exact ended_of_head fun c hc => mem_ends_of_mem_halts (hx c hc)
  · exact ended_of_head fun c hc => mem_ends_of_mem_halts (hy c hc)
  · exact iff_of_false (hnot hx (by decide)) (hnot hy (by decide))
  · exact fun _ => ⟨hnot hx (by decide), hnot hy (by decide)⟩
  · exact fun _ => iff_of_false (hnot hx (by decide)) (hnot hy (by decide))
  · exact fun j hj _ => iff_of_false (hnot hx (hjoints j hj)) (hnot hy (hjoints j hj))
  · exact fun _ => hnot hx (by decide)

/-- So will an end in the place of a halt, if it does not join what stands in
    front of it. -/
theorem exchange_of_ends {w x y : Text} (hne : x ≠ []) (hx : ∀ c ∈ x.head?, c ∈ halts)
    (hy : ∀ c ∈ y.head?, c ∈ ends ∧ ¬ Joins w c) (h : OpenEscape w → OffersLess x y) :
    Exchange w x y := by
  have hnot : ∀ {b : UInt8}, b ∉ halts → x.head? ≠ some b := fun hb heq => hb (hx _ heq)
  have hapart : ∀ {b : UInt8}, Joins w b → y.head? ≠ some b := fun hb heq => (hy _ heq).2 hb
  have hjoints : ∀ j ∈ joints, j.2 ∉ halts := by decide
  refine ⟨⟨?_, ?_, hne, ?_, h⟩, ?_, ?_, ?_, ?_⟩
  · exact ended_of_head fun c hc => mem_ends_of_mem_halts (hx c hc)
  · exact ended_of_head fun c hc => (hy c hc).1
  · exact iff_of_false (hnot (by decide)) (hapart (.inl rfl))
  · exact fun hwhole => ⟨hnot (by decide), hapart (.inr (.inr (.inl ⟨rfl, hwhole⟩)))⟩
  · exact fun _ => iff_of_false (hnot (by decide)) (hapart (.inr (.inl rfl)))
  · intro j hj hw
    have hjoins : Joins w j.2 := .inr (.inr (.inr ⟨j, hj, hw ▸ List.suffix_rfl, rfl⟩))
    exact iff_of_false (hnot (hjoints j hj)) (hapart hjoins)
  · exact fun _ => hnot (by decide)

/-- Nothing but the first byte matters to a token in front of two texts, if no
    more of the token can follow that byte. -/
theorem exchange_of_head {c : UInt8} (hc : c ∈ ends) (hlooked : c ∉ [ascii '.', ascii '!'])
    (w x y : Text) : Exchange w (c :: x) (c :: y) := by
  have hhead : ∀ d ∈ [ascii '.', ascii '!'], ∀ z : Text, (c :: z).head? ≠ some d := by
    rintro d hd z ⟨⟩
    exact hlooked hd
  have hpoint := hhead (ascii '.') List.mem_cons_self
  have hmark := hhead (ascii '!') (List.mem_cons_of_mem _ List.mem_cons_self)
  exact { left := .intro hc, right := .intro hc, nonempty := List.cons_ne_nil c x,
          paren := Iff.rfl, escapes := fun _ => offersLess_of_head? rfl,
          point := fun _ => ⟨hpoint x, hpoint y⟩, percent := fun _ => Iff.rfl,
          marks := fun _ _ _ => Iff.rfl, opening := fun _ => hmark x }

theorem Stopped.halts {x : Text} (h : Stopped x) : ∀ c ∈ x.head?, c ∈ halts := by
  cases h with
  | intro hc =>
    rintro _ ⟨⟩
    exact List.mem_append_left _ hc

theorem Stopped.ne_nil {x : Text} (h : Stopped x) : x ≠ [] := by
  cases h with
  | intro => exact List.cons_ne_nil _ _

theorem Stopped.exchange {w x y : Text} (hx : Stopped x) (hy : Stopped y)
    (h : OpenEscape w → OffersLess x y) : Exchange w x y :=
  exchange_of_halts hx.ne_nil hx.halts hy.halts h

theorem NameExchange.drop {w x y : Text} (h : NameExchange w x y) (n : Nat) :
    NameExchange (w.drop n) x y :=
  { h with escapes := fun hw => h.escapes (hw.of_suffix (List.drop_suffix n w)) }

theorem NameExchange.tail {b : UInt8} {w x y : Text} (h : NameExchange (b :: w) x y) :
    NameExchange w x y :=
  h.drop 1

theorem NameExchange.length_pos {w x y : Text} (h : NameExchange w x y) : 0 < x.length :=
  List.length_pos_iff.mpr h.nonempty

/-! ## Names -/

section Names

variable {w x y : Text}

/-- The bytes of an escape that is written in hexadecimal digits. -/
def hexEscape (t : Text) : Nat :=
  let digits := min 6 (run Byte.isHexDigit t)
  digits + one isSpace (t.drop digits)

theorem escape?_cons (b : UInt8) (rest : Text) :
    escape? (b :: rest) =
      if isNewline b then none
      else some (if Byte.isHexDigit b then hexEscape (b :: rest)
        else if 0xC0 ≤ b then sequence b rest else 1) := by
  rw [escape?]
  split
  · rfl
  · split
    · rfl
    · split <;> rfl

/-- The digits of an escape end at an end. If it ends inside of `w`, the white
    space behind the digits either lies there too or there is none. -/
theorem hexEscape_append (hx : Ended x) (hy : Ended y)
    (hspace : (∀ c ∈ w, Byte.isHexDigit c = true) → one isSpace y ≤ one isSpace x)
    (h : hexEscape (w ++ x) ≤ w.length) : hexEscape (w ++ y) = hexEscape (w ++ x) := by
  have hle := run_le_length Byte.isHexDigit w
  have hdigits : min 6 (run Byte.isHexDigit w) ≤ w.length := by omega
  have hleft : ∀ c ∈ x.head?, Byte.isHexDigit c = false := hx.forall_head (by decide)
  have hright : ∀ c ∈ y.head?, Byte.isHexDigit c = false := hy.forall_head (by decide)
  simp only [hexEscape, run_append hleft, run_append hright,
    List.drop_append_of_le_length hdigits] at h ⊢
  by_cases hlt : min 6 (run Byte.isHexDigit w) < w.length
  · rw [one_append_of_ne_nil isSpace (drop_ne_nil hlt) x y]
  · have hall : w.length ≤ run Byte.isHexDigit w := by omega
    have hless := hspace (forall_mem_of_length_le_run hall)
    have hend : w.drop (min 6 (run Byte.isHexDigit w)) = [] := List.drop_eq_nil_of_le (by omega)
    rw [hend, List.nil_append] at h ⊢
    rw [List.nil_append]
    omega

/-- A sequence that ends inside of `w` has its announced length there. -/
theorem sequence_append {b : UInt8} (hx : x ≠ []) (h : sequence b (w ++ x) ≤ w.length + 1)
    (y : Text) : sequence b (w ++ y) = sequence b (w ++ x) := by
  have hpos := List.length_pos_iff.mpr hx
  simp only [sequence, List.length_append] at h ⊢
  generalize (if b < 0xE0 then 2 else if b < 0xF0 then 3 else 4) = announced at h ⊢
  omega

theorem openEscape_cons {w : Text} (h : ∀ c ∈ w, Byte.isHexDigit c = true) :
    OpenEscape (ascii '\\' :: w) :=
  ⟨w, List.suffix_rfl, h⟩

/-- What is no escape is none with the other text behind it either. -/
theorem NameExchange.escape?_eq_none (h : NameExchange (ascii '\\' :: w) x y)
    (hnone : escape? (w ++ x) = none) : escape? (w ++ y) = none := by
  cases w with
  | nil => exact (h.escapes (openEscape_cons fun _ hc => nomatch hc)).none hnone
  | cons b w =>
    rw [List.cons_append, escape?_cons] at hnone ⊢
    split at hnone
    · rename_i hnewline
      rw [if_pos hnewline]
    · cases hnone

/-- An escape that ends inside of `w` takes the same bytes there. -/
theorem NameExchange.escape?_eq_some {n : Nat} (h : NameExchange (ascii '\\' :: w) x y)
    (hsome : escape? (w ++ x) = some n) (hn : n ≤ w.length) : escape? (w ++ y) = some n := by
  cases w with
  | nil =>
    -- A byte that is escaped is taken.
    obtain ⟨c, x, rfl⟩ := List.exists_cons_of_ne_nil h.nonempty
    have hhex : Byte.isHexDigit c = false := h.left.forall_head (by decide) c rfl
    have hlow : decide (0xC0 ≤ c) = false :=
      h.left.forall_head (p := fun c => decide (0xC0 ≤ c)) (by decide) c rfl
    rw [List.nil_append, escape?_cons] at hsome
    split at hsome
    · cases hsome
    · rw [if_neg (by rw [hhex]; decide), if_neg (of_decide_eq_false hlow)] at hsome
      cases hsome
      exact absurd hn (by decide)
  | cons b w =>
    rw [List.cons_append, escape?_cons] at hsome ⊢
    rw [List.length_cons] at hn
    split at hsome
    · cases hsome
    · rename_i hnewline
      rw [if_neg hnewline]
      split at hsome
      · rename_i hdigit
        have hhex : hexEscape ((b :: w) ++ y) = hexEscape ((b :: w) ++ x) :=
          hexEscape_append h.left h.right (fun hall => (h.escapes (openEscape_cons hall)).space)
            (by cases hsome; exact hn)
        rw [List.cons_append, List.cons_append] at hhex
        rw [if_pos hdigit, hhex, hsome]
      · rename_i hdigit
        rw [if_neg hdigit]
        split at hsome
        · rename_i hwide
          rw [if_pos hwide, sequence_append h.nonempty (by cases hsome; exact hn), hsome]
        · rename_i hwide
          rw [if_neg hwide, hsome]

theorem nameTail_of_ended (h : Ended x) : nameTail x = 0 := by
  cases x with
  | nil => rw [nameTail]
  | cons c x =>
    have hname : isNameByte c = false := h.forall_head (by decide) c rfl
    have hslash : c ≠ ascii '\\' := fun heq => h.head?_ne (by decide) (congrArg some heq)
    rw [nameTail, if_neg (by rw [hname]; decide), if_neg hslash]

theorem nameHead_of_ended (h : Ended x) : nameHead x = 0 := by
  cases x with
  | nil => rfl
  | cons c x =>
    have hname : isNameStart c = false := h.forall_head (by decide) c rfl
    have hslash : c ≠ ascii '\\' := fun heq => h.head?_ne (by decide) (congrArg some heq)
    rw [nameHead, if_neg (by rw [hname]; decide), if_neg hslash]

/-- The bytes of names and escapes, if they end inside of `w`. -/
theorem nameTail_append : ∀ {w : Text}, NameExchange w x y → nameTail (w ++ x) ≤ w.length →
    nameTail (w ++ y) = nameTail (w ++ x)
  | [], h, _ => by
    rw [List.nil_append, List.nil_append, nameTail_of_ended h.left, nameTail_of_ended h.right]
  | b :: w, h, hn => by
    rw [List.cons_append, nameTail, List.length_cons] at hn
    rw [List.cons_append, List.cons_append, nameTail, nameTail]
    split at hn
    · rename_i hb
      rw [if_pos hb, if_pos hb, nameTail_append h.tail (by omega)]
    · rename_i hb
      rw [if_neg hb, if_neg hb]
      split at hn
      · rename_i hslash
        subst hslash
        rw [if_pos rfl, if_pos rfl]
        cases hescape : escape? (w ++ x) with
        | none => rw [h.escape?_eq_none hescape]
        | some n =>
          rw [hescape] at hn
          dsimp only at hn
          have hle : n ≤ w.length := by omega
          rw [h.escape?_eq_some hescape hle]
          rw [List.drop_append_of_le_length hle] at hn
          dsimp only
          -- The name goes on behind the escape, still inside of `w`.
          rw [List.drop_append_of_le_length hle, List.drop_append_of_le_length hle,
            nameTail_append (h.tail.drop n) (by rw [List.length_drop]; omega)]
      · rename_i hslash
        rw [if_neg hslash, if_neg hslash]
termination_by w => w.length
decreasing_by
  · simp only [List.length_drop, List.length_cons]; omega
  · simp

theorem nameHead_append {w : Text} (h : NameExchange w x y) (hn : nameHead (w ++ x) ≤ w.length) :
    nameHead (w ++ y) = nameHead (w ++ x) := by
  cases w with
  | nil =>
    rw [List.nil_append, List.nil_append, nameHead_of_ended h.left, nameHead_of_ended h.right]
  | cons b w =>
    rw [List.cons_append, nameHead, List.length_cons] at hn
    rw [List.cons_append, List.cons_append, nameHead, nameHead]
    split at hn
    · rename_i hb
      rw [if_pos hb, if_pos hb]
    · rename_i hb
      rw [if_neg hb, if_neg hb]
      split at hn
      · rename_i hslash
        subst hslash
        rw [if_pos rfl, if_pos rfl]
        cases hescape : escape? (w ++ x) with
        | none => rw [h.escape?_eq_none hescape]
        | some n =>
          rw [hescape] at hn
          have hle : n ≤ w.length := by
            dsimp only at hn
            omega
          rw [h.escape?_eq_some hescape hle]
      · rename_i hslash
        rw [if_neg hslash, if_neg hslash]

/-- The dash that may stand in front of a name. -/
def dash (t : Text) : Nat := one (· == ascii '-') t

theorem name_eq (t : Text) :
    name t =
      if t.take 2 = [ascii '-', ascii '-'] then 2 + nameTail (t.drop 2)
      else if nameHead (t.drop (dash t)) = 0 then 0
      else dash t + nameHead (t.drop (dash t)) +
        nameTail (t.drop (dash t + nameHead (t.drop (dash t)))) := by
  match t with
  | [] => rfl
  | [a] =>
    by_cases ha : a = ascii '-'
    · subst ha
      rfl
    · have hdash : dash [a] = 0 := by simp [dash, one, ha]
      simp [name, hdash]
  | a :: b :: rest =>
    by_cases ha : a = ascii '-'
    · subst ha
      by_cases hb : b = ascii '-'
      · subst hb
        rfl
      · have hdash : dash (ascii '-' :: b :: rest) = 1 := rfl
        simp [name, hdash, hb]
    · have hdash : dash (a :: b :: rest) = 0 := by simp [dash, one, ha]
      simp [name, hdash, ha]

theorem take_two_append (hx : Ended x) (w : Text) :
    (w ++ x).take 2 = [ascii '-', ascii '-'] ↔ w.take 2 = [ascii '-', ascii '-'] := by
  have hdash := hx.head?_ne (by decide : ascii '-' ∉ ends)
  cases x with
  | nil => rw [List.append_nil]
  | cons c x =>
    have hne : c ≠ ascii '-' := fun heq => hdash (congrArg some heq)
    match w with
    | [] => simp [hne]
    | [a] => simp [hne]
    | a :: b :: w => simp

theorem dash_append (hx : Ended x) (w : Text) : dash (w ++ x) = dash w :=
  one_append (hx.forall_head (by decide +kernel)) w

/-- A name that ends inside of `w`; a text that is no name there is none. -/
theorem name_append (h : NameExchange w x y) (hn : name (w ++ x) ≤ w.length) :
    name (w ++ y) = name (w ++ x) := by
  have hle : dash w ≤ w.length := one_le_length _ w
  rw [name_eq (w ++ x)] at hn
  rw [name_eq (w ++ x), name_eq (w ++ y)]
  simp only [take_two_append h.left, take_two_append h.right, dash_append h.left,
    dash_append h.right] at hn ⊢
  by_cases hdashes : w.take 2 = [ascii '-', ascii '-']
  · -- Behind two dashes a name may begin with any byte of a name, or end.
    rw [if_pos hdashes] at hn
    have htwo : 2 ≤ w.length := by
      have hlength := congrArg List.length hdashes
      rw [List.length_take] at hlength
      simp only [List.length_cons, List.length_nil] at hlength
      omega
    rw [List.drop_append_of_le_length htwo] at hn
    rw [if_pos hdashes, if_pos hdashes, List.drop_append_of_le_length htwo,
      List.drop_append_of_le_length htwo,
      nameTail_append (h.drop 2) (by rw [List.length_drop]; omega)]
  · rw [if_neg hdashes] at hn
    rw [if_neg hdashes, if_neg hdashes]
    rw [List.drop_append_of_le_length hle] at hn ⊢
    rw [List.drop_append_of_le_length hle]
    by_cases hzero : nameHead (w.drop (dash w) ++ x) = 0
    · rw [nameHead_append (h.drop _) (by omega), if_pos hzero, if_pos hzero]
    · rw [if_neg hzero] at hn
      have hhead : nameHead (w.drop (dash w) ++ x) ≤ (w.drop (dash w)).length := by
        rw [List.length_drop]
        omega
      have hsum : dash w + nameHead (w.drop (dash w) ++ x) ≤ w.length := by omega
      rw [nameHead_append (h.drop _) hhead, if_neg hzero, if_neg hzero]
      rw [List.drop_append_of_le_length hsum] at hn ⊢
      rw [List.drop_append_of_le_length hsum,
        nameTail_append (h.drop _) (by rw [List.length_drop]; omega)]

end Names

/-! ## Strings, addresses and comments -/

section Delimited

variable {x y : Text}

/-- The bytes that a backslash inside of a string hides. -/
def hidden (rest : Text) : Nat :=
  match escape? rest with
  | some n => n
  | none =>
    match rest with
    | c :: d :: _ => if c = ascii '\r' && d = ascii '\n' then 2 else if isNewline c then 1 else 0
    | [c] => if isNewline c then 1 else 0
    | [] => 0

theorem stringTail_cons (quote b : UInt8) (rest : Text) :
    stringTail quote (b :: rest) =
      if isNewline b then (false, 1)
      else if b = quote then (true, 1)
      else if b = ascii '\\' then
        ((stringTail quote (rest.drop (hidden rest))).1,
          1 + hidden rest + (stringTail quote (rest.drop (hidden rest))).2)
      else ((stringTail quote rest).1, (stringTail quote rest).2 + 1) := by
  rw [stringTail.eq_def]
  dsimp only
  split
  · rfl
  · split
    · rfl
    · split
      · rfl
      · rfl

theorem stringTail_pos (quote b : UInt8) (rest : Text) : 0 < (stringTail quote (b :: rest)).2 := by
  rw [stringTail_cons]
  split
  · exact Nat.one_pos
  · split
    · exact Nat.one_pos
    · split <;> dsimp only <;> omega

/-- What a backslash hides inside of `w`, with a byte of `w` behind it. -/
theorem hidden_append {w : Text} (h : NameExchange (ascii '\\' :: w) x y)
    (hlt : hidden (w ++ x) < w.length) : hidden (w ++ y) = hidden (w ++ x) := by
  unfold hidden at hlt ⊢
  cases hescape : escape? (w ++ x) with
  | some n =>
    rw [hescape] at hlt
    rw [h.escape?_eq_some hescape (Nat.le_of_lt hlt)]
  | none =>
    rw [hescape] at hlt
    rw [h.escape?_eq_none hescape]
    match w with
    | a :: b :: w => rfl
    | [a] =>
      -- Only a line break is no escape, and it would be hidden.
      have hnewline : isNewline a = true := by
        rw [List.singleton_append, escape?_cons] at hescape
        split at hescape
        · assumption
        · cases hescape
      obtain ⟨c, x, rfl⟩ := List.exists_cons_of_ne_nil h.nonempty
      simp only [List.singleton_append, hnewline, if_true, List.length_singleton] at hlt
      split at hlt <;> omega
    | [] => exact absurd hlt (Nat.not_lt_zero _)

/-- A string that ends inside of `w` has been closed there. -/
theorem stringTail_append {quote : UInt8} : ∀ {w : Text}, NameExchange w x y →
    (stringTail quote (w ++ x)).2 ≤ w.length →
    stringTail quote (w ++ y) = stringTail quote (w ++ x)
  | [], h, hn => by
    -- Even a string that is closed at once takes a byte, and `w` has none.
    obtain ⟨c, x, rfl⟩ := List.exists_cons_of_ne_nil h.nonempty
    exact absurd (stringTail_pos quote c x) (by rw [List.nil_append] at hn; simpa using hn)
  | b :: w, h, hn => by
    rw [List.cons_append, stringTail_cons, List.length_cons] at hn
    rw [List.cons_append, List.cons_append, stringTail_cons, stringTail_cons]
    split at hn
    · rename_i hb
      rw [if_pos hb, if_pos hb]
    · rename_i hb
      rw [if_neg hb, if_neg hb]
      split at hn
      · rename_i hquote
        rw [if_pos hquote, if_pos hquote]
      · rename_i hquote
        rw [if_neg hquote, if_neg hquote]
        split at hn
        · rename_i hslash
          subst hslash
          dsimp only at hn
          -- What the backslash hides lies inside of `w`, and the string goes on behind it.
          have hle : hidden (w ++ x) ≤ w.length := by omega
          rw [List.drop_append_of_le_length hle] at hn
          have hpos : 0 < (stringTail quote (w.drop (hidden (w ++ x)) ++ x)).2 := by
            obtain ⟨c, rest, hcons⟩ := List.exists_cons_of_ne_nil
              (List.append_ne_nil_of_right_ne_nil (w.drop (hidden (w ++ x))) h.nonempty)
            rw [hcons]
            exact stringTail_pos quote c rest
          have hhidden := hidden_append h (by omega)
          have hrest : stringTail quote (w.drop (hidden (w ++ x)) ++ y) =
              stringTail quote (w.drop (hidden (w ++ x)) ++ x) :=
            stringTail_append (h.tail.drop _) (by rw [List.length_drop]; omega)
          rw [if_pos rfl, if_pos rfl, hhidden, List.drop_append_of_le_length hle,
            List.drop_append_of_le_length hle, hrest]
        · rename_i hslash
          rw [if_neg hslash, if_neg hslash, stringTail_append h.tail (by dsimp only at hn; omega)]
termination_by w => w.length
decreasing_by
  · simp
  · simp only [List.length_drop, List.length_cons]; omega

theorem bareUrl_cons (b : UInt8) (rest : Text) :
    bareUrl (b :: rest) =
      if b = ascii ')' then (true, 0)
      else if b = ascii '\\' then
        match escape? rest with
        | some n => ((bareUrl (rest.drop n)).1, n + 1 + (bareUrl (rest.drop n)).2)
        | none => (false, 0)
      else if isQuote b || b = ascii '(' || b ≤ 0x20 || b = 0x7F then (false, 0)
      else ((bareUrl rest).1, (bareUrl rest).2 + 1) :=
  bareUrl.eq_def (b :: rest)

/-- A bare address that ends in front of a byte of `w`. -/
theorem bareUrl_append : ∀ {w : Text}, NameExchange w x y → (bareUrl (w ++ x)).2 < w.length →
    bareUrl (w ++ y) = bareUrl (w ++ x)
  | [], _, hn => absurd hn (Nat.not_lt_zero _)
  | b :: w, h, hn => by
    rw [List.cons_append, bareUrl_cons, List.length_cons] at hn
    rw [List.cons_append, List.cons_append, bareUrl_cons, bareUrl_cons]
    split at hn
    · rename_i hb
      rw [if_pos hb, if_pos hb]
    · rename_i hb
      rw [if_neg hb, if_neg hb]
      split at hn
      · rename_i hslash
        subst hslash
        rw [if_pos rfl, if_pos rfl]
        cases hescape : escape? (w ++ x) with
        | none => rw [h.escape?_eq_none hescape]
        | some n =>
          rw [hescape] at hn
          dsimp only at hn
          have hle : n ≤ w.length := by omega
          rw [h.escape?_eq_some hescape hle]
          rw [List.drop_append_of_le_length hle] at hn
          dsimp only
          rw [List.drop_append_of_le_length hle, List.drop_append_of_le_length hle,
            bareUrl_append (h.tail.drop n) (by rw [List.length_drop]; omega)]
      · rename_i hslash
        rw [if_neg hslash, if_neg hslash]
        split at hn
        · rename_i hbad
          rw [if_pos hbad, if_pos hbad]
        · rename_i hbad
          rw [if_neg hbad, if_neg hbad, bareUrl_append h.tail (by dsimp only at hn; omega)]
termination_by w => w.length
decreasing_by
  · simp
  · simp only [List.length_drop, List.length_cons]; omega

theorem address_cons (b : UInt8) (rest : Text) :
    address (b :: rest) =
      if isQuote b then ((stringTail b rest).1, (stringTail b rest).2 + 1)
      else if (bareUrl (b :: rest)).1 then (true, (bareUrl (b :: rest)).2)
      else
        (one isSpace ((b :: rest).drop (bareUrl (b :: rest)).2) != 0,
          (bareUrl (b :: rest)).2 + one isSpace ((b :: rest).drop (bareUrl (b :: rest)).2)) := by
  rfl

theorem address_append {w : Text} (h : NameExchange w x y) (hn : (address (w ++ x)).2 < w.length) :
    address (w ++ y) = address (w ++ x) := by
  cases w with
  | nil => exact absurd hn (Nat.not_lt_zero _)
  | cons b w =>
    rw [List.cons_append, address_cons, List.length_cons] at hn
    rw [List.cons_append, List.cons_append, address_cons, address_cons]
    split at hn
    · rename_i hquote
      rw [if_pos hquote, if_pos hquote,
        stringTail_append h.tail (by dsimp only at hn; omega)]
    · rename_i hquote
      rw [if_neg hquote, if_neg hquote]
      -- The address itself ends inside of `w`, whether or not a gap follows it.
      have hle : (bareUrl ((b :: w) ++ x)).2 < (b :: w).length := by
        rw [List.cons_append, List.length_cons]
        split at hn <;> dsimp only at hn <;> omega
      have hsame := bareUrl_append h hle
      have hgap := one_append_of_ne_nil isSpace (drop_ne_nil hle) x y
      rw [← List.drop_append_of_le_length (Nat.le_of_lt hle),
        ← List.drop_append_of_le_length (Nat.le_of_lt hle)] at hgap
      rw [List.cons_append, List.cons_append] at hsame hgap
      rw [hsame, hgap]

theorem urlTail_eq (t : Text) :
    urlTail t =
      let size := run isSpace t + (address (t.drop (run isSpace t))).2
      let behind := size + run isSpace (t.drop size)
      if (address (t.drop (run isSpace t))).1 then
        match t.drop behind with
        | [] => (.url, behind)
        | b :: _ =>
          if b = ascii ')' then (.url, behind + 1)
          else (.badUrl, behind + badUrlTail (t.drop behind))
      else (.badUrl, size + badUrlTail (t.drop size)) := by
  rfl

/-- An address that is closed inside of `w`. -/
theorem urlTail_append {w : Text} {n : Nat} (h : NameExchange w x y)
    (hurl : urlTail (w ++ x) = (.url, n)) (hn : n ≤ w.length) : urlTail (w ++ y) = (.url, n) := by
  have hpos := h.length_pos
  rw [urlTail_eq] at hurl ⊢
  dsimp only at hurl ⊢
  split at hurl
  · rename_i hfine
    split at hurl
    · -- The end of the text lies behind `x`.
      rename_i hend
      have hlength := congrArg List.length hend
      simp only [List.length_drop, List.length_append, List.length_nil] at hlength
      cases hurl
      omega
    · rename_i b more hbehind
      split at hurl
      · rename_i hb
        obtain ⟨-, hsum⟩ := Prod.mk.inj hurl
        -- Each part of the address ends in front of the parenthesis, inside of `w`.
        generalize hlead : run isSpace (w ++ x) = lead at hfine hbehind hsum
        have hle : lead ≤ w.length := by omega
        rw [List.drop_append_of_le_length hle] at hfine hbehind hsum
        generalize haddress : address (w.drop lead ++ x) = found at hfine hbehind hsum
        have hsize : lead + found.2 ≤ w.length := by omega
        rw [List.drop_append_of_le_length hsize] at hbehind hsum
        generalize hgap : run isSpace (w.drop (lead + found.2) ++ x) = gap at hbehind hsum
        have hlead' : run isSpace (w ++ y) = lead := by
          rw [run_append_of_lt (x := x) (by omega) y, hlead]
        have haddress' : address (w.drop lead ++ y) = found := by
          rw [address_append (h.drop lead) (by rw [haddress, List.length_drop]; omega), haddress]
        have hgap' : run isSpace (w.drop (lead + found.2) ++ y) = gap := by
          rw [run_append_of_lt (x := x) (by rw [hgap, List.length_drop]; omega) y, hgap]
        have hwhole : lead + found.2 + gap ≤ w.length := by omega
        rw [hlead', List.drop_append_of_le_length hle, haddress', if_pos hfine,
          List.drop_append_of_le_length hsize, hgap', List.drop_append_of_le_length hwhole]
        rw [List.drop_append_of_le_length hwhole] at hbehind
        cases hdrop : w.drop (lead + found.2 + gap) with
        | nil =>
          have hlength := congrArg List.length hdrop
          rw [List.length_drop, List.length_nil] at hlength
          omega
        | cons c rest =>
          rw [hdrop] at hbehind
          cases hbehind
          rw [List.cons_append]
          dsimp only
          rw [if_pos hb, hsum]
      · cases hurl
  · cases hurl

theorem commentTail_pos (b : UInt8) (rest : Text) : 0 < commentTail (b :: rest) := by
  cases rest with
  | nil => exact Nat.one_pos
  | cons c rest =>
    rw [commentTail]
    split <;> omega

/-- A comment that ends inside of `w` has been closed there. -/
theorem commentTail_append (hx : x ≠ []) (y : Text) : ∀ {w : Text},
    commentTail (w ++ x) ≤ w.length → commentTail (w ++ y) = commentTail (w ++ x)
  | [], hn => by
    obtain ⟨c, x, rfl⟩ := List.exists_cons_of_ne_nil hx
    exact absurd (commentTail_pos c x) (by simpa using hn)
  | [a], hn => by
    obtain ⟨c, x, rfl⟩ := List.exists_cons_of_ne_nil hx
    have hpos := commentTail_pos c x
    rw [List.singleton_append, commentTail, List.length_singleton] at hn
    split at hn <;> omega
  | a :: b :: w, hn => by
    simp only [List.cons_append, commentTail, List.length_cons] at hn ⊢
    split at hn
    · rename_i hclosed
      rw [if_pos hclosed, if_pos hclosed]
    · rename_i hopen
      have hrest := commentTail_append hx y (w := b :: w)
        (by rw [List.cons_append, List.length_cons]; omega)
      rw [List.cons_append, List.cons_append] at hrest
      rw [if_neg hopen, if_neg hopen, hrest]

end Delimited

/-! ## Tokens -/

section Tokens

variable {w x y : Text} {kind : TokenKind} {n : Nat}

/-- The `n` bytes of a token of the class `kind` lie inside of `w`, except for
    the parenthesis at the end of a function, which may stand behind it. -/
def Within (w : Text) (kind : TokenKind) (n : Nat) : Prop :=
  n ≤ w.length ∨ (kind = .function ∧ n = w.length + 1)

theorem Within.le (h : Within w kind n) (hkind : kind ≠ .function) : n ≤ w.length :=
  h.resolve_right fun hfunction => hkind hfunction.1

/-- What `f` recognizes inside of `w` does not depend on the choice between `x`
    and `y`, and neither does it whether it recognizes anything. Bad addresses
    are left out: they run on to the next parenthesis. -/
structure Settled (w x y : Text) (f : Text → Option (TokenKind × Nat)) : Prop where
  none : f (w ++ x) = none → f (w ++ y) = none
  some : ∀ kind n, f (w ++ x) = some (kind, n) → Within w kind n → kind ≠ .badUrl →
    f (w ++ y) = some (kind, n)

theorem Exchange.number_left (h : Exchange w x y) : number (w ++ x) = number w :=
  number_append h.left.unnumbered fun hwhole => fraction_eq_zero (h.point hwhole).1

theorem Exchange.number_right (h : Exchange w x y) : number (w ++ y) = number w :=
  number_append h.right.unnumbered fun hwhole => fraction_eq_zero (h.point hwhole).2

/-- The percent sign behind a number. -/
theorem Exchange.head?_percent (h : Exchange w x y) :
    (w.drop (number w) ++ y).head? = some (ascii '%') ↔
      (w.drop (number w) ++ x).head? = some (ascii '%') := by
  cases hdrop : w.drop (number w) with
  | cons b v => exact Iff.rfl
  | nil =>
    have hle := List.drop_eq_nil_iff.mp hdrop
    exact (h.percent (Nat.le_antisymm (number_le_length w) hle)).symm

/-- The second byte of a mark. -/
theorem Exchange.head?_joint {b c : UInt8} (h : Exchange (b :: w) x y) (hj : ([b], c) ∈ joints) :
    (w ++ y).head? = some c ↔ (w ++ x).head? = some c := by
  cases w with
  | cons a w => exact Iff.rfl
  | nil => exact (h.marks _ hj rfl).symm

theorem head?_append_eq_some (hx : Ended x) {b : UInt8} (hb : b ∉ ends) (w : Text) :
    (w ++ x).head? = some b ↔ w.head? = some b := by
  cases w with
  | cons a w => rfl
  | nil => exact iff_of_false (hx.head?_ne hb) (fun heq => nomatch heq)

/-- Two choices by the same condition, taken together. -/
theorem ite_imp {α : Type} {c : Prop} [Decidable c] {a a' b b' r : α} (hpos : c → a = r → a' = r)
    (hneg : ¬ c → b = r → b' = r) : (if c then a else b) = r → (if c then a' else b') = r := by
  by_cases hc : c
  · rw [if_pos hc, if_pos hc]
    exact hpos hc
  · rw [if_neg hc, if_neg hc]
    exact hneg hc

/-- A number is told from a percentage and a dimension by what stands behind it. -/
theorem numeric?_eq (t : Text) :
    numeric? t =
      if number t = 0 then none
      else if (t.drop (number t)).head? = some (ascii '%') then some (.percentage, number t + 1)
      else if name (t.drop (number t)) = 0 then some (.number, number t)
      else some (.dimension, number t + name (t.drop (number t))) := by
  unfold numeric?
  dsimp only
  split
  · rfl
  · cases t.drop (number t) with
    | nil => rfl
    | cons b rest => simp only [List.head?_cons, Option.some.injEq]

theorem nameLike?_eq (t : Text) :
    nameLike? t =
      if name t = 0 then none
      else if (t.drop (name t)).head? = some (ascii '(') then
        if ((t.take (name t)).filter (· != ascii '\\')).map Byte.lower = utf8 "url" then
          some ((urlTail (t.drop (name t + 1))).1, name t + 1 + (urlTail (t.drop (name t + 1))).2)
        else some (.function, name t + 1)
      else some (.ident, name t) := by
  unfold nameLike?
  dsimp only
  split
  · rfl
  · rw [← List.tail_drop]
    cases t.drop (name t) with
    | nil => rfl
    | cons b rest => simp only [List.head?_cons, Option.some.injEq, List.tail_cons]

theorem numeric?_eq_none_iff {t : Text} : numeric? t = none ↔ number t = 0 := by
  grind [numeric?_eq]

theorem nameLike?_eq_none_iff {t : Text} : nameLike? t = none ↔ name t = 0 := by
  grind [nameLike?_eq]

theorem numeric?_settled (h : Exchange w x y) : Settled w x y numeric? := by
  have hle := number_le_length w
  refine ⟨?_, ?_⟩
  · rw [numeric?_eq_none_iff, numeric?_eq_none_iff, h.number_left, h.number_right]
    exact id
  · intro kind n hsome hn _
    revert hsome
    have hpercent := h.head?_percent
    simp only [numeric?_eq, h.number_left, h.number_right, List.drop_append_of_le_length hle,
      hpercent]
    refine ite_imp (fun _ hsome => hsome) fun _ => ?_
    refine ite_imp (fun _ hsome => hsome) fun _ hsome => ?_
    have hunit : name (w.drop (number w) ++ x) ≤ (w.drop (number w)).length := by
      rw [List.length_drop]
      split at hsome
      · omega
      · cases hsome
        have hle := hn.le (by decide)
        omega
    rw [name_append (h.toNameExchange.drop (number w)) hunit, hsome]

theorem urlTail_kind (t : Text) : (urlTail t).1 = .url ∨ (urlTail t).1 = .badUrl := by
  rw [urlTail_eq]
  dsimp only
  split
  · split
    · exact .inl rfl
    · split
      · exact .inl rfl
      · exact .inr rfl
  · exact .inr rfl

/-- The name lies inside of `w`, if what begins with it does. -/
theorem name_le_of_nameLike? {t : Text} (h : nameLike? t = some (kind, n)) (hn : Within w kind n) :
    name t ≤ w.length := by
  have hurl := urlTail_kind (t.drop (name t + 1))
  rw [nameLike?_eq] at h
  unfold Within at hn
  split at h
  · omega
  · split at h
    · split at h <;> cases h
      · have hkind : (urlTail (t.drop (name t + 1))).1 ≠ .function := by
          rcases hurl with hurl | hurl <;> rw [hurl] <;> decide
        have hle := hn.resolve_right fun hfunction => hkind hfunction.1
        omega
      · omega
    · cases h
      have hle := hn.resolve_right fun hfunction => nomatch hfunction.1
      exact hle

theorem NameExchange.head?_paren (h : NameExchange w x y) (v : Text) :
    (v ++ y).head? = some (ascii '(') ↔ (v ++ x).head? = some (ascii '(') := by
  cases v with
  | nil => exact h.paren.symm
  | cons b v => exact Iff.rfl

theorem nameLike?_settled (h : NameExchange w x y) : Settled w x y nameLike? := by
  refine ⟨?_, ?_⟩
  · rw [nameLike?_eq_none_iff, nameLike?_eq_none_iff]
    intro hzero
    rw [name_append h (by omega), hzero]
  · intro kind n hsome hn hkind
    have hle : name (w ++ x) ≤ w.length := name_le_of_nameLike? hsome hn
    revert hsome
    rw [nameLike?_eq, nameLike?_eq, name_append h hle]
    simp only [List.take_append_of_le_length hle, List.drop_append_of_le_length hle,
      h.head?_paren]
    refine ite_imp (fun _ hsome => hsome) fun _ => ?_
    refine ite_imp (fun _ => ?_) fun _ hsome => hsome
    refine ite_imp (fun _ hsome => ?_) fun _ hsome => hsome
    -- The address is a good one, so it is closed inside of `w`.
    have hclosed := urlTail_kind ((w ++ x).drop (name (w ++ x) + 1))
    cases hfound : urlTail ((w ++ x).drop (name (w ++ x) + 1)) with
    | mk found m =>
      rw [hfound] at hsome hclosed
      cases hsome
      obtain rfl : found = .url := hclosed.resolve_right hkind
      have hall := hn.le (fun hfunction => nomatch hfunction)
      have hlt : name (w ++ x) + 1 ≤ w.length := by omega
      have hm : m ≤ (w.drop (name (w ++ x) + 1)).length := by
        rw [List.length_drop]
        omega
      rw [List.drop_append_of_le_length hlt] at hfound ⊢
      rw [urlTail_append (h.drop (name (w ++ x) + 1)) hfound hm]

/-- A range of code points is settled by what stands in front of the end. -/
theorem unicodeRange?_append (hx : Ended x) (w : Text) :
    unicodeRange? (w ++ x) = unicodeRange? w := by
  have hdigits : ∀ c ∈ x.head?, Byte.isHexDigit c = false := hx.forall_head (by decide)
  have hmarks : ∀ c ∈ x.head?, (c == ascii '?') = false := hx.forall_head (by decide +kernel)
  match w with
  | [] =>
    cases x with
    | nil => rfl
    | cons c rest =>
      have hletter := hx.forall_head (p := fun c => Byte.lower c == ascii 'u') (by decide +kernel)
        c rfl
      cases rest with
      | nil => rfl
      | cons d rest => simp [unicodeRange?, beq_eq_false_iff_ne.mp hletter]
  | [u] =>
    cases x with
    | nil => rfl
    | cons c rest =>
      have hplus : c ≠ ascii '+' := fun heq => hx.head?_ne (by decide) (congrArg some heq)
      simp [unicodeRange?, hplus]
  | u :: plus :: w =>
    have hle := run_le_length Byte.isHexDigit w
    simp only [List.cons_append, unicodeRange?, run_append hdigits,
      List.drop_append_of_le_length hle]
    split
    · cases hdrop : w.drop (run Byte.isHexDigit w) with
      | nil =>
        cases x with
        | nil => rfl
        | cons c rest =>
          have hdash : c ≠ ascii '-' := fun heq => hx.head?_ne (by decide) (congrArg some heq)
          have hnone : run (· == ascii '?') (c :: rest) = 0 := run_cons_of_neg (hmarks c rfl)
          simp only [List.nil_append, if_neg hdash, hnone, Nat.add_zero]
      | cons b more =>
        have hsame := run_append hmarks (b :: more)
        rw [List.cons_append] at hsame
        simp only [List.cons_append, run_append hdigits, hsame]
    · rfl

theorem unicodeRange?_settled (h : NameExchange w x y) : Settled w x y unicodeRange? := by
  have hsame : unicodeRange? (w ++ y) = unicodeRange? (w ++ x) := by
    rw [unicodeRange?_append h.left, unicodeRange?_append h.right]
  refine ⟨?_, ?_⟩
  · intro hnone
    rw [hsame, hnone]
  · intro kind n hsome _ _
    rw [hsame, hsome]

/-- The first of several alternatives is the same one, if each is settled. -/
theorem firstOf_append (fs : List (Text → Option (TokenKind × Nat)))
    (h : ∀ f ∈ fs, Settled w x y f) (hs : firstOf (fs.map fun f => f (w ++ x)) = (kind, n))
    (hn : Within w kind n) (hkind : kind ≠ .badUrl) :
    firstOf (fs.map fun f => f (w ++ y)) = (kind, n) := by
  induction fs with
  | nil => exact hs
  | cons f fs ih =>
    rw [List.forall_mem_cons] at h
    obtain ⟨hf, hfs⟩ := h
    cases hfound : f (w ++ x) with
    | none =>
      have hrest : firstOf (fs.map fun f => f (w ++ x)) = (kind, n) := by
        simpa [firstOf, hfound] using hs
      simpa [firstOf, hf.none hfound] using ih hfs hrest
    | some found =>
      obtain rfl : found = (kind, n) := by simpa [firstOf, hfound] using hs
      simp [firstOf, hf.some kind n hfound hn hkind]

theorem isPrefixOf_append {t : Text} (hx : ∀ c ∈ x.head?, c ∉ t) (w : Text) :
    t.isPrefixOf (w ++ x) = t.isPrefixOf w := by
  induction t generalizing w with
  | nil => simp
  | cons a t ih =>
    cases w with
    | nil =>
      cases x with
      | nil => rfl
      | cons c rest =>
        have hne : (a == c) = false := by
          rw [beq_eq_false_iff_ne]
          exact fun heq => hx c rfl (by rw [heq]; exact List.mem_cons_self)
        rw [List.nil_append, List.isPrefixOf_cons_cons, hne]
        rfl
    | cons b w =>
      have hrest := ih (fun c hc hmem => hx c hc (List.mem_cons_of_mem a hmem)) w
      simp only [List.cons_append, List.isPrefixOf_cons_cons, hrest]

theorem Exchange.commentOpen (h : Exchange (ascii '<' :: w) x y) :
    (utf8 "!--").isPrefixOf (w ++ y) = (utf8 "!--").isPrefixOf (w ++ x) := by
  have hmark : utf8 "!--" = ascii '!' :: [ascii '-', ascii '-'] := by decide +kernel
  rw [hmark]
  cases w with
  | nil =>
    have hleft := h.opening rfl
    have hright := fun heq => hleft ((h.marks ([ascii '<'], ascii '!') (by decide) rfl).mpr heq)
    have hnone : ∀ {z : Text}, z.head? ≠ some (ascii '!') →
        (ascii '!' :: [ascii '-', ascii '-']).isPrefixOf z = false := by
      intro z hz
      cases z with
      | nil => rfl
      | cons c z =>
        have hne : (ascii '!' == c) = false :=
          beq_eq_false_iff_ne.mpr fun heq => hz (by rw [heq]; rfl)
        rw [List.isPrefixOf_cons_cons, hne, Bool.false_and]
    rw [List.nil_append, List.nil_append, hnone hleft, hnone hright]
  | cons a w =>
    -- Behind the exclamation mark there are dashes only, and a dash is no end.
    have hnone : ∀ {z : Text}, Ended z → ∀ c ∈ z.head?, c ∉ [ascii '-', ascii '-'] := by
      intro z hz c hc hmem
      obtain rfl : c = ascii '-' := by simpa using hmem
      exact hz.head?_ne (by decide) hc
    simp only [List.cons_append, List.isPrefixOf_cons_cons, isPrefixOf_append (hnone h.left),
      isPrefixOf_append (hnone h.right)]

theorem isPrefixOf_singleton (a : UInt8) (t : Text) :
    [a].isPrefixOf t = true ↔ t.head? = some a := by
  cases t with
  | nil => simp
  | cons b t =>
    rw [List.isPrefixOf_cons_cons, List.isPrefixOf_nil_left, Bool.and_true, beq_iff_eq,
      List.head?_cons, Option.some.injEq]
    exact eq_comm

theorem Exchange.commentClose (h : Exchange (ascii '-' :: w) x y) :
    (utf8 "->").isPrefixOf (w ++ y) = (utf8 "->").isPrefixOf (w ++ x) := by
  have hmark : utf8 "->" = [ascii '-', ascii '>'] := by decide +kernel
  rw [hmark]
  match w with
  | [] =>
    have hnone : ∀ {z : Text}, Ended z → [ascii '-', ascii '>'].isPrefixOf z = false := by
      intro z hz
      have hdash := hz.head?_ne (by decide : ascii '-' ∉ ends)
      cases z with
      | nil => rfl
      | cons c z =>
        have hne : (ascii '-' == c) = false :=
          beq_eq_false_iff_ne.mpr fun heq => hdash (by rw [heq]; rfl)
        rw [List.isPrefixOf_cons_cons, hne, Bool.false_and]
    rw [List.nil_append, List.nil_append, hnone h.left, hnone h.right]
  | [a] =>
    rw [List.singleton_append, List.singleton_append, List.isPrefixOf_cons_cons,
      List.isPrefixOf_cons_cons]
    by_cases ha : a = ascii '-'
    · subst ha
      have hclose : [ascii '>'].isPrefixOf y = [ascii '>'].isPrefixOf x := by
        rw [Bool.eq_iff_iff, isPrefixOf_singleton, isPrefixOf_singleton]
        exact (h.marks ([ascii '-', ascii '-'], ascii '>') (by decide) rfl).symm
      rw [hclose]
    · have hne : (ascii '-' == a) = false := beq_eq_false_iff_ne.mpr fun heq => ha heq.symm
      rw [hne, Bool.false_and, Bool.false_and]
  | a :: c :: w => simp only [List.cons_append, List.isPrefixOf_cons_cons, List.isPrefixOf_nil_left]

theorem pair_eq (second : UInt8) (kind : TokenKind) (rest : Text) :
    pair second kind rest = if rest.head? = some second then (kind, 2) else (.delim, 1) := by
  cases rest with
  | nil => rfl
  | cons b rest => simp only [pair, List.head?_cons, Option.some.injEq]

theorem Exchange.pair_eq {b second : UInt8} (h : Exchange (b :: w) x y)
    (hj : ([b], second) ∈ joints) (kind : TokenKind) :
    pair second kind (w ++ y) = pair second kind (w ++ x) := by
  simp only [Lexer.pair_eq, h.head?_joint hj]

/-- A token that lies inside of `w` stays what it is when `y` takes the place of
    `x` behind `w`. -/
theorem scan_append {b : UInt8} (h : Exchange (b :: w) x y) (hs : scan b (w ++ x) = (kind, n))
    (hn : Within (b :: w) kind n) (hspace : kind ≠ .whitespace) (hurl : kind ≠ .badUrl) :
    scan b (w ++ y) = (kind, n) := by
  have hrange := unicodeRange?_settled h.toNameExchange
  have hname := nameLike?_settled h.toNameExchange
  have hnumeric := numeric?_settled h
  have hfirst : ∀ fs : List (Text → Option (TokenKind × Nat)),
      (∀ f ∈ fs, Settled (b :: w) x y f) → firstOf (fs.map fun f => f (b :: (w ++ x))) = (kind, n) →
        firstOf (fs.map fun f => f (b :: (w ++ y))) = (kind, n) := fun fs hfs hs =>
    firstOf_append fs hfs hs hn hurl
  have htail := h.toNameExchange.tail
  have hlength : (b :: w).length = w.length + 1 := rfl
  revert hs
  unfold scan
  dsimp only
  refine ite_imp (fun _ hs => absurd (Prod.mk.inj hs).1.symm hspace) fun _ => ?_
  -- Single marks.
  iterate 9 refine ite_imp (fun _ hs => hs) fun _ => ?_
  refine ite_imp (fun _ hs => ?_) fun _ => ?_
  · -- `#`
    have hle : nameTail (w ++ x) ≤ w.length := by
      split at hs
      · omega
      · cases hs
        have hall := hn.le (by decide)
        omega
    rw [nameTail_append htail hle, hs]
  refine ite_imp (fun _ hs => ?_) fun _ => ?_
  · -- A string.
    have hle : (stringTail b (w ++ x)).2 ≤ w.length := by
      cases hs
      have hall := hn.le (by split <;> decide)
      omega
    rw [stringTail_append htail hle, hs]
  refine ite_imp (fun _ hs => ?_) fun _ => ?_
  · exact hfirst [numeric?] (by simpa using hnumeric) hs
  refine ite_imp (fun hb => ?_) fun _ => ?_
  · -- `-`
    subst hb
    rw [h.commentClose]
    simp only [head?_append_eq_some h.left (by decide : ascii '-' ∉ ends),
      head?_append_eq_some h.right (by decide : ascii '-' ∉ ends)]
    refine ite_imp (fun _ hs => hs) fun _ => ?_
    refine ite_imp (fun _ hs => ?_) fun _ hs => ?_
    · have hle : name ((ascii '-' :: w) ++ x) ≤ (ascii '-' :: w).length := by
        cases hs
        exact hn.le (by decide)
      have hsame := name_append h.toNameExchange hle
      rw [List.cons_append, List.cons_append] at hsame
      rw [hsame, hs]
    · exact hfirst [nameLike?, numeric?] (by simp [hname, hnumeric]) hs
  refine ite_imp (fun _ hs => ?_) fun _ => ?_
  · -- `@`
    have hle : name (w ++ x) ≤ w.length := by
      split at hs
      · omega
      · cases hs
        have hall := hn.le (by decide)
        omega
    rw [name_append htail hle, hs]
  -- Marks that a second byte may follow.
  iterate 4
    refine ite_imp (fun hb hs => ?_) fun _ => ?_
    · rw [h.pair_eq (by rw [hb]; decide), hs]
  refine ite_imp (fun hb hs => ?_) fun _ => ?_
  · -- `/`
    subst hb
    have hstar := h.head?_joint (c := ascii '*') (by decide)
    cases w with
    | nil =>
      rw [List.nil_append] at hs hstar
      rw [List.nil_append] at hstar ⊢
      obtain ⟨c, x, rfl⟩ := List.exists_cons_of_ne_nil h.nonempty
      by_cases hc : c = ascii '*'
      · -- A comment takes more than the slash.
        rw [hc] at hs
        cases hs
        have hall := hn.le (by decide)
        rw [List.length_singleton] at hall
        omega
      · have hs : (TokenKind.delim, 1) = (kind, n) := by
          simpa only [if_neg hc] using hs
        cases y with
        | nil => exact hs
        | cons d y =>
          have hd : d ≠ ascii '*' := fun heq =>
            hc (Option.some.inj (hstar.mp (congrArg some heq)))
          simpa only [if_neg hd] using hs
    | cons c w =>
      simp only [List.cons_append] at hs ⊢
      revert hs
      refine ite_imp (fun _ hs => ?_) fun _ hs => hs
      have hle : commentTail (w ++ x) ≤ w.length := by
        cases hs
        have hall := hn.le (by decide)
        rw [List.length_cons, List.length_cons] at hall
        omega
      rw [commentTail_append h.nonempty y hle, hs]
  refine ite_imp (fun hb => ?_) fun _ => ?_
  · -- `<`
    subst hb
    rw [h.commentOpen]
    exact id
  refine ite_imp (fun _ hs => ?_) fun _ => ?_
  · exact hfirst [nameLike?] (by simpa using hname) hs
  refine ite_imp (fun _ hs => ?_) fun _ => ?_
  · exact hfirst [unicodeRange?, nameLike?] (by simp [hrange, hname]) hs
  refine ite_imp (fun hb => ?_) fun _ hs => ?_
  · -- `|`
    subst hb
    rw [h.pair_eq (by decide)]
    simp only [h.head?_joint (c := ascii '|') (by decide)]
    exact id
  · exact hfirst [numeric?, nameLike?] (by simp [hnumeric, hname]) hs

end Tokens

end MixinCss.Lexer
