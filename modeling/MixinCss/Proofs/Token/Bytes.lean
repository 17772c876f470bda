/-
  MixinCss.Proofs.Token.Bytes

  Which tokens can hold the bytes that a list of selectors is taken apart by: the
  ampersand, the comma, parentheses and brackets. Outside of strings, addresses
  and escapes each of them is a token by itself, except for the parenthesis at
  the end of a function (`IsLexeme.bytes`).
-/

import MixinCss.Proofs.Token.Seams

namespace MixinCss.Lexer

/-- The ampersand, the comma, parentheses and brackets. -/
def listMarks : List UInt8 :=
  [ascii '&', ascii ',', ascii '(', ascii ')', ascii '[', ascii ']']

/-- A text without these bytes. -/
def IsPlain (t : Text) : Prop := ∀ c ∈ t, c ∉ listMarks

theorem IsPlain.append {a b : Text} (ha : IsPlain a) (hb : IsPlain b) : IsPlain (a ++ b) :=
  List.forall_mem_append.mpr ⟨ha, hb⟩

theorem isPlain_nil : IsPlain [] := fun _ hc => absurd hc List.not_mem_nil

theorem IsPlain.cons {b : UInt8} {t : Text} (hb : b ∉ listMarks) (ht : IsPlain t) :
    IsPlain (b :: t) :=
  List.forall_mem_cons.mpr ⟨hb, ht⟩

/-- A class of bytes to which none of them belongs. -/
theorem isPlain_of_forall {p : UInt8 → Bool} (hp : listMarks.any p = false) {t : Text}
    (ht : ∀ c ∈ t, p c = true) : IsPlain t := by
  intro c hc hmark
  exact List.any_eq_false.mp hp c hmark (ht c hc)

/-! ## Beginnings of a text -/

section Beginnings

variable {t : Text}

theorem isPlain_take_add {a b : Nat} (ha : IsPlain (t.take a)) (hb : IsPlain ((t.drop a).take b)) :
    IsPlain (t.take (a + b)) := by
  rw [List.take_add]
  exact ha.append hb

theorem isPlain_take_run {p : UInt8 → Bool} (hp : listMarks.any p = false) (t : Text) :
    IsPlain (t.take (run p t)) := by
  rw [take_run]
  exact isPlain_of_forall hp fun c hc => List.mem_takeWhile_imp hc

theorem isPlain_take_one {p : UInt8 → Bool} (hp : listMarks.any p = false) (t : Text) :
    IsPlain (t.take (one p t)) := by
  cases t with
  | nil => exact isPlain_nil
  | cons b rest =>
    rw [one]
    split
    · rename_i hb
      exact isPlain_of_forall hp (List.forall_mem_singleton.mpr hb)
    · exact isPlain_nil

/-! ## Numbers -/

theorem isPlain_fraction (t : Text) : IsPlain (t.take (fraction t)) := by
  cases t with
  | nil => exact isPlain_nil
  | cons b rest =>
    rw [fraction]
    split
    · rename_i hb
      dsimp only
      split
      · exact isPlain_nil
      · rw [Nat.add_comm, List.take_succ_cons]
        exact .cons (by rw [hb]; decide) (isPlain_take_run (by decide) rest)
    · exact isPlain_nil

theorem isPlain_exponent (t : Text) : IsPlain (t.take (exponent t)) := by
  cases t with
  | nil => exact isPlain_nil
  | cons b rest =>
    rw [exponent]
    split
    · rename_i hb
      dsimp only
      split
      · exact isPlain_nil
      · have hmark : ∀ c ∈ listMarks, Byte.lower c ≠ ascii 'e' := by decide +kernel
        rw [Nat.add_assoc, Nat.add_comm, List.take_succ_cons]
        refine .cons (fun hmem => hmark b hmem hb) ?_
        exact isPlain_take_add (isPlain_take_one (by decide) rest) (isPlain_take_run (by decide) _)
    · exact isPlain_nil

theorem isPlain_number (t : Text) : IsPlain (t.take (number t)) := by
  have hsign := isPlain_take_one (p := isSign) (by decide) t
  have hwhole := isPlain_take_run (p := Byte.isDigit) (by decide) (t.drop (one isSign t))
  have hpart := isPlain_fraction (t.drop (one isSign t + run Byte.isDigit (t.drop (one isSign t))))
  unfold number
  dsimp only
  split
  · exact isPlain_nil
  · exact isPlain_take_add (isPlain_take_add (isPlain_take_add hsign hwhole) hpart)
      (isPlain_exponent _)

/-! ## Names -/

theorem isPlain_of_isNameByte {t : Text} (h : ∀ c ∈ t, isNameByte c = true) : IsPlain t :=
  isPlain_of_forall (by decide) h

/-- Without a backslash there are only bytes of names. -/
theorem isPlain_nameTail {t : Text} (h : ascii '\\' ∉ t.take (nameTail t)) :
    IsPlain (t.take (nameTail t)) := by
  fun_induction nameTail t with
  | case1 => exact isPlain_nil
  | case2 b rest hb ih =>
    rw [List.take_succ_cons] at h ⊢
    refine (isPlain_of_isNameByte (List.forall_mem_singleton.mpr hb)).append (ih ?_)
    exact fun hmem => h (List.mem_cons_of_mem b hmem)
  | case3 rest n hescape hb ih =>
    rw [Nat.add_right_comm, List.take_succ_cons] at h
    exact absurd List.mem_cons_self h
  | case4 => exact isPlain_nil
  | case5 => exact isPlain_nil

theorem isPlain_nameHead {t : Text} (h : ascii '\\' ∉ t.take (nameHead t)) :
    IsPlain (t.take (nameHead t)) := by
  cases t with
  | nil => exact isPlain_nil
  | cons b rest =>
    rw [nameHead] at h ⊢
    split at h
    · rename_i hb
      rw [if_pos hb]
      refine isPlain_of_isNameByte (List.forall_mem_singleton.mpr ?_)
      rw [isNameByte, hb]
      rfl
    · rename_i hb
      rw [if_neg hb]
      split at h
      · rename_i hslash
        rw [if_pos hslash]
        split at h
        · rw [List.take_succ_cons, hslash] at h
          exact absurd List.mem_cons_self h
        · exact isPlain_nil
      · rename_i hslash
        rw [if_neg hslash]
        exact isPlain_nil

theorem isPlain_name {t : Text} (h : ascii '\\' ∉ t.take (name t)) : IsPlain (t.take (name t)) := by
  have hdash : IsPlain (t.take (dash t)) := isPlain_take_one (by decide) t
  rw [name_eq] at h ⊢
  split at h
  · rename_i htwo
    rw [if_pos htwo]
    rw [List.take_add, List.mem_append, not_or] at h
    refine isPlain_take_add ?_ (isPlain_nameTail h.2)
    rw [htwo]
    exact .cons (by decide) (.cons (by decide) isPlain_nil)
  · rename_i htwo
    rw [if_neg htwo]
    split at h
    · rename_i hzero
      rw [if_pos hzero]
      exact isPlain_nil
    · rename_i hzero
      rw [if_neg hzero]
      rw [List.take_add, List.mem_append, not_or, List.take_add, List.mem_append, not_or] at h
      exact isPlain_take_add (isPlain_take_add hdash (isPlain_nameHead h.1.2))
        (isPlain_nameTail h.2)

end Beginnings

/-! ## Tokens -/

/-- The text of a function: a name and its parenthesis. -/
def IsFunctionText (t : Text) : Prop := ∃ w, t = w ++ [ascii '('] ∧ IsPlain w

/-- The classes of tokens that may hold any byte. -/
def quotedKinds : List TokenKind := [.string, .badString, .url, .badUrl, .comment]

/-- A class of tokens with a text that it can have, strings, addresses and
    escapes apart. -/
inductive HasBytes : TokenKind → Text → Prop where
  | plain {kind : TokenKind} {t : Text} (hkind : kind ∉ .function :: marks.map Prod.snd)
      (ht : IsPlain t) : HasBytes kind t
  | mark {b : UInt8} {kind : TokenKind} (h : (b, kind) ∈ marks) : HasBytes kind [b]
  | function {t : Text} (ht : IsFunctionText t) : HasBytes .function t
  | ampersand : HasBytes .delim [ascii '&']

theorem hasBytes_delim {b : UInt8} (h : b ∉ marks.map Prod.fst) : HasBytes .delim [b] := by
  by_cases hb : b = ascii '&'
  · rw [hb]
    exact .ampersand
  · have hlist : ∀ c ∈ listMarks, c = ascii '&' ∨ c ∈ marks.map Prod.fst := by decide +kernel
    refine .plain (by decide) (.cons (fun hmem => ?_) isPlain_nil)
    rcases hlist b hmem with heq | hmark
    · exact hb heq
    · exact h hmark

section Tokens

variable {t : Text} {kind : TokenKind} {n : Nat}

theorem hasBytes_numeric? (h : numeric? t = some (kind, n)) (hslash : ascii '\\' ∉ t.take n) :
    HasBytes kind (t.take n) := by
  have hnumber := isPlain_number t
  rw [numeric?_eq] at h
  split at h
  · cases h
  split at h
  · rename_i hpercent
    cases h
    obtain ⟨more, hmore⟩ := List.head?_eq_some_iff.mp hpercent
    refine .plain (by decide) (isPlain_take_add hnumber ?_)
    rw [hmore]
    exact .cons (by decide) isPlain_nil
  split at h
  · cases h
    exact .plain (by decide) hnumber
  · cases h
    rw [List.take_add, List.mem_append, not_or] at hslash
    exact .plain (by decide) (isPlain_take_add hnumber (isPlain_name hslash.2))

theorem hasBytes_unicodeRange? (h : unicodeRange? t = some (kind, n)) :
    HasBytes kind (t.take n) := by
  match t with
  | [] => cases h
  | [_] => cases h
  | u :: plus :: rest =>
    rw [unicodeRange?] at h
    obtain ⟨hmarks, h⟩ := Option.ite_none_right_eq_some.mp h
    rw [Bool.and_eq_true, decide_eq_true_eq, decide_eq_true_eq] at hmarks
    have hletter : ∀ c ∈ listMarks, Byte.lower c ≠ ascii 'u' := by decide +kernel
    have hfront : IsPlain ((u :: plus :: rest).take (2 + run Byte.isHexDigit rest)) := by
      rw [Nat.add_comm, List.take_succ_cons, List.take_succ_cons]
      refine .cons (fun hmem => hletter u hmem hmarks.1) (.cons ?_ ?_)
      · rw [hmarks.2]
        decide
      · exact isPlain_take_run (by decide) rest
    have hrest : (u :: plus :: rest).drop (2 + run Byte.isHexDigit rest) =
        rest.drop (run Byte.isHexDigit rest) := by
      rw [Nat.add_comm, List.drop_succ_cons, List.drop_succ_cons]
    dsimp only at h
    split at h
    · rename_i b more hdrop
      split at h
      · -- Two groups of digits with a dash between them.
        rename_i hb
        obtain ⟨-, h⟩ := Option.ite_none_right_eq_some.mp h
        cases h
        have hsum : 3 + run Byte.isHexDigit rest + run Byte.isHexDigit more =
            2 + run Byte.isHexDigit rest + (run Byte.isHexDigit more + 1) := by omega
        rw [hsum]
        refine .plain (by decide) (isPlain_take_add hfront ?_)
        rw [hrest, hdrop, List.take_succ_cons]
        exact .cons (by rw [hb]; decide) (isPlain_take_run (by decide) more)
      · obtain ⟨-, h⟩ := Option.ite_none_right_eq_some.mp h
        cases h
        refine .plain (by decide) (isPlain_take_add hfront ?_)
        rw [hrest, hdrop]
        exact isPlain_take_run (by decide +kernel) _
    · obtain ⟨-, h⟩ := Option.ite_none_right_eq_some.mp h
      cases h
      exact .plain (by decide) hfront

theorem hasBytes_nameLike? (h : nameLike? t = some (kind, n)) (hslash : ascii '\\' ∉ t.take n)
    (hkind : kind ∉ quotedKinds) : HasBytes kind (t.take n) := by
  rw [nameLike?_eq] at h
  split at h
  · cases h
  split at h
  · rename_i hparen
    split at h
    · cases h
      refine absurd ?_ hkind
      rcases urlTail_kind (t.drop (name t + 1)) with heq | heq <;> rw [heq] <;> decide
    · cases h
      rw [List.take_add, List.mem_append, not_or] at hslash
      obtain ⟨more, hmore⟩ := List.head?_eq_some_iff.mp hparen
      refine .function ⟨t.take (name t), ?_, isPlain_name hslash.1⟩
      rw [List.take_add, hmore]
      rfl
  · cases h
    exact .plain (by decide) (isPlain_name hslash)

end Tokens

theorem isPlain_cons_take {b : UInt8} {rest : Text} {n : Nat} (hb : b ∉ listMarks)
    (hrest : ascii '\\' ∉ rest.take n → IsPlain (rest.take n))
    (hslash : ascii '\\' ∉ (b :: rest).take (n + 1)) : IsPlain ((b :: rest).take (n + 1)) := by
  rw [List.take_succ_cons] at hslash ⊢
  exact .cons hb (hrest fun hmem => hslash (List.mem_cons_of_mem b hmem))

theorem Scanned.hasBytes {b : UInt8} {rest : Text} {r : TokenKind × Nat} (h : Scanned b rest r)
    (hkind : r.1 ∉ quotedKinds) (hslash : ascii '\\' ∉ (b :: rest).take r.2) :
    HasBytes r.1 ((b :: rest).take r.2) := by
  cases h with
  | space hb =>
    exact .plain (show TokenKind.whitespace ∉ _ by decide) (isPlain_take_run (by decide) _)
  | mark hmem => exact .mark hmem
  | @pair second kind hmem hsecond =>
    obtain ⟨more, rfl⟩ := List.head?_eq_some_iff.mp hsecond
    have hpairs : ∀ p ∈ pairs, p.2.2 ∉ .function :: marks.map Prod.snd ∧
        IsPlain [p.1, p.2.1] := by
      unfold IsPlain
      decide +kernel
    obtain ⟨hother, hplain⟩ := hpairs _ hmem
    exact .plain hother hplain
  | commentOpen hb hrest =>
    obtain ⟨more, rfl⟩ := hrest
    rw [hb]
    refine .plain (show TokenKind.commentOpen ∉ _ by decide) ?_
    exact .cons (by decide) (.cons (by decide) (.cons (by decide) (.cons (by decide) isPlain_nil)))
  | commentClose hb hrest =>
    obtain ⟨more, rfl⟩ := hrest
    rw [hb]
    refine .plain (show TokenKind.commentClose ∉ _ by decide) ?_
    exact .cons (by decide) (.cons (by decide) (.cons (by decide) isPlain_nil))
  | hash hb hname =>
    refine .plain (show TokenKind.hash ∉ _ by decide) ?_
    exact isPlain_cons_take (by rw [hb]; decide) isPlain_nameTail hslash
  | atKeyword hb hname =>
    refine .plain (show TokenKind.atKeyword ∉ _ by decide) ?_
    exact isPlain_cons_take (by rw [hb]; decide) isPlain_name hslash
  | custom htwo =>
    exact .plain (show TokenKind.customProperty ∉ _ by decide) (isPlain_name hslash)
  | comment => exact absurd (show TokenKind.comment ∈ quotedKinds by decide) hkind
  | string => exact absurd (show TokenKind.string ∈ quotedKinds by decide) hkind
  | badString => exact absurd (show TokenKind.badString ∈ quotedKinds by decide) hkind
  | numeric hr => exact hasBytes_numeric? hr hslash
  | nameLike hr => exact hasBytes_nameLike? hr hslash hkind
  | unicodeRange hr => exact hasBytes_unicodeRange? hr
  | delim hmark => exact hasBytes_delim hmark

/-- The bytes of a lexeme that is no string, address or comment and holds no
    escape. -/
theorem IsLexeme.bytes {t : Token} {rest : Text} (h : IsLexeme t rest)
    (hkind : t.kind ∉ quotedKinds) (hslash : ascii '\\' ∉ t.text) : HasBytes t.kind t.text := by
  obtain ⟨b, u, htext, hscan, htake⟩ := h
  obtain ⟨n, hn⟩ : ∃ n, (scan b (u ++ rest)).2 = n + 1 :=
    Nat.exists_eq_succ_of_ne_zero (Nat.ne_of_gt (seamAt_scan b (u ++ rest)).1)
  have hwhole : (b :: (u ++ rest)).take (scan b (u ++ rest)).2 = t.text := by
    rw [hn, Nat.add_sub_cancel] at htake
    rw [hn, List.take_succ_cons, htake, htext]
  have hbytes := (scanned_scan b (u ++ rest)).hasBytes
  rw [hwhole, hscan] at hbytes
  exact hbytes hkind hslash

end MixinCss.Lexer
