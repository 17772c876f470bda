/-
  MixinCss.Proofs.Grammar.Brackets

  Parentheses and brackets in accepted sources. Three scans count them: the cut
  into segments and the split at commas count both kinds together, the search
  for the end of a call counts parentheses alone. A count does not tell which
  bracket is open, so it is compared here with a scan that keeps the open
  brackets themselves (`ProperlyNested`). The counts decide proper nesting where
  one kind of bracket occurs, and find the commas outside of all brackets where
  the tokens are properly nested (`parse_counts_brackets`); where the two kinds
  cross they do not (`parse_accepts_crossed`).
-/

import MixinCss.Proofs.Grammar.Stored

namespace MixinCss

/-! ## Proper nesting -/

/-- The kinds of brackets. -/
inductive Bracket where
  | paren
  | square
deriving DecidableEq, Repr

/-- What a token does to the brackets that are open. -/
inductive Turn where
  | opens (b : Bracket)
  | closes (b : Bracket)
  | stays
deriving DecidableEq, Repr

namespace Turn

/-- The open brackets after a turn, the innermost first. Only the innermost one
    can be closed. -/
def pass : Turn → List Bracket → Option (List Bracket)
  | .opens b, opened => some (b :: opened)
  | .closes b, last :: opened => if last = b then some opened else none
  | .closes _, [] => none
  | .stays, opened => some opened

/-- How many more brackets are open after a turn. -/
def nesting : Turn → Int
  | .opens _ => 1
  | .closes _ => -1
  | .stays => 0

theorem length_of_pass {turn : Turn} {opened next : List Bracket}
    (h : turn.pass opened = some next) : (next.length : Int) = opened.length + turn.nesting := by
  cases turn with
  | opens b =>
    cases h
    rfl
  | closes b =>
    cases opened with
    | nil => cases h
    | cons last opened =>
      rw [pass] at h
      split at h
      · cases h
        rw [List.length_cons, nesting]
        omega
      · cases h
  | stays =>
    cases h
    exact (Int.add_zero _).symm

end Turn

namespace Token

/-- A function opens the parenthesis at its end. -/
def turn (t : Token) : Turn :=
  match t.kind with
  | .function | .openParen => .opens .paren
  | .closeParen => .closes .paren
  | .openBracket => .opens .square
  | .closeBracket => .closes .square
  | _ => .stays

theorem nesting_eq_turn (t : Token) : t.nesting = t.turn.nesting := by
  unfold nesting turn
  cases t.kind <;> rfl

theorem parenNesting_eq_nesting {t : Token}
    (h : t.turn = .opens .paren ∨ t.turn = .closes .paren ∨ t.turn = .stays) :
    t.parenNesting = t.nesting := by
  revert h
  unfold parenNesting nesting turn
  cases t.kind <;> simp

end Token

namespace Grammar

/-- The brackets that are open after tokens, the innermost first, if `opened`
    are open in front. -/
def openAfter (opened : List Bracket) : List Token → Option (List Bracket)
  | [] => some opened
  | t :: ts => (t.turn.pass opened).bind fun next => openAfter next ts

/-- Every bracket is closed by one of its kind, the innermost first. -/
def ProperlyNested (ts : List Token) : Prop := openAfter [] ts = some []

instance (ts : List Token) : Decidable (ProperlyNested ts) :=
  inferInstanceAs (Decidable (openAfter [] ts = some []))

/-- No bracket of another kind than `b` occurs. -/
def OnlyBracket (b : Bracket) (ts : List Token) : Prop :=
  ∀ t ∈ ts, t.turn = .opens b ∨ t.turn = .closes b ∨ t.turn = .stays

theorem openAfter_append (opened : List Bracket) (front back : List Token) :
    openAfter opened (front ++ back) =
      (openAfter opened front).bind fun next => openAfter next back := by
  induction front generalizing opened with
  | nil => rfl
  | cons t front ih =>
    rw [List.cons_append, openAfter, openAfter, Option.bind_assoc]
    congr 1
    funext next
    exact ih next

theorem length_of_openAfter {opened next : List Bracket} {ts : List Token}
    (h : openAfter opened ts = some next) : (next.length : Int) = opened.length + level ts := by
  induction ts generalizing opened with
  | nil =>
    cases h
    exact (Int.add_zero _).symm
  | cons t ts ih =>
    obtain ⟨mid, hpass, hrest⟩ := Option.bind_eq_some_iff.mp h
    rw [ih hrest, Turn.length_of_pass hpass, level_cons, Token.nesting_eq_turn]
    omega

/-- Properly nested tokens never close more than is open. -/
theorem ProperlyNested.neverBelow {ts front : List Token} (h : ProperlyNested ts)
    (hfront : front <+: ts) : 0 ≤ level front := by
  obtain ⟨back, rfl⟩ := hfront
  unfold ProperlyNested at h
  rw [openAfter_append, Option.bind_eq_some_iff] at h
  obtain ⟨mid, hmid, -⟩ := h
  have hlength := length_of_openAfter hmid
  rw [List.length_nil] at hlength
  omega

/-- With one kind of bracket the count tells what is open. -/
theorem openAfter_replicate {b : Bracket} {ts : List Token} {n : Nat} (honly : OnlyBracket b ts)
    (hbelow : ∀ front, front <+: ts → 0 ≤ (n : Int) + level front) :
    openAfter (List.replicate n b) ts =
      some (List.replicate ((n : Int) + level ts).toNat b) := by
  induction ts generalizing n with
  | nil => simp [openAfter]
  | cons t ts ih =>
    rw [forall_prefix_cons] at hbelow
    obtain ⟨-, hbelow⟩ := hbelow
    obtain ⟨hturn, honly⟩ := List.forall_mem_cons.mp honly
    have hnow := hbelow [] List.nil_prefix
    simp only [level_cons, level_nil, Token.nesting_eq_turn] at hbelow hnow
    -- What is open behind `t` is again a number of brackets of the one kind.
    have hstep : ∃ m : Nat, (m : Int) = n + t.turn.nesting ∧
        t.turn.pass (List.replicate n b) = some (List.replicate m b) := by
      rcases hturn with hturn | hturn | hturn <;> rw [hturn] at hnow ⊢
      · exact ⟨n + 1, rfl, rfl⟩
      · cases n with
        | zero => simp [Turn.nesting] at hnow
        | succ n =>
          refine ⟨n, ?_, if_pos rfl⟩
          rw [Turn.nesting]
          omega
      · exact ⟨n, (Int.add_zero _).symm, rfl⟩
    obtain ⟨m, hm, hpass⟩ := hstep
    have hrest := ih honly fun front hfront => by
      have hge := hbelow front hfront
      rwa [hm, Int.add_assoc]
    rw [openAfter, hpass, Option.bind_some, hrest, level_cons, Token.nesting_eq_turn, hm,
      Int.add_assoc]

theorem properlyNested_of_onlyBracket {b : Bracket} {ts : List Token} (honly : OnlyBracket b ts)
    (hbelow : ∀ front, front <+: ts → 0 ≤ level front) (hclosed : level ts = 0) :
    ProperlyNested ts := by
  have hopen := openAfter_replicate (n := 0) honly fun front hfront => by
    rw [Int.natCast_zero, Int.zero_add]
    exact hbelow front hfront
  rwa [hclosed] at hopen

theorem level_eq_parenLevel {ts : List Token} (h : OnlyBracket .paren ts) :
    level ts = parenLevel ts := by
  induction ts with
  | nil => rfl
  | cons t ts ih =>
    obtain ⟨hturn, hrest⟩ := List.forall_mem_cons.mp h
    rw [level_cons, parenLevel_cons, ih hrest, Token.parenNesting_eq_nesting hturn]

/-! ## Commas -/

/-- How many commas stand where the count of brackets is zero, if it is `depth`
    in front. -/
def commasAtZero (depth : Int) : List Token → Nat
  | [] => 0
  | t :: ts =>
    (if t.kind = .comma ∧ depth = 0 then 1 else 0) + commasAtZero (depth + t.nesting) ts

/-- How many commas stand outside of all brackets, if `opened` are open in
    front. -/
def commasOutside (opened : List Bracket) : List Token → Nat
  | [] => 0
  | t :: ts =>
    (if t.kind = .comma ∧ opened = [] then 1 else 0) +
      (t.turn.pass opened).elim 0 fun next => commasOutside next ts

theorem length_splitFrom (depth : Int) (ts : List Token) :
    (splitFrom .comma depth ts).length = commasAtZero depth ts + 1 := by
  induction ts generalizing depth with
  | nil => rfl
  | cons t ts ih =>
    by_cases hsplit : t.kind = .comma ∧ depth = 0
    · -- A comma leaves the count as it is.
      have hnesting : t.nesting = 0 := by
        unfold Token.nesting
        rw [hsplit.1]
      rw [splitFrom, if_pos hsplit, List.length_cons, ih, commasAtZero, if_pos hsplit, hnesting,
        Int.add_zero, Nat.add_comm 1]
    · obtain ⟨group, groups, hrest, hcons⟩ := exists_splitFrom_cons ts hsplit
      rw [hcons, commasAtZero, if_neg hsplit, Nat.zero_add, ← ih, hrest, List.length_cons,
        List.length_cons]

/-- In properly nested tokens the count is zero just outside of all brackets. -/
theorem commasAtZero_eq_commasOutside {opened next : List Bracket} {ts : List Token}
    (h : openAfter opened ts = some next) :
    commasAtZero opened.length ts = commasOutside opened ts := by
  induction ts generalizing opened with
  | nil => rfl
  | cons t ts ih =>
    obtain ⟨mid, hpass, hrest⟩ := Option.bind_eq_some_iff.mp h
    have hzero : (opened.length : Int) = 0 ↔ opened = [] := by
      rw [Int.natCast_eq_zero, List.length_eq_zero_iff]
    rw [commasAtZero, commasOutside, hpass, Option.elim_some, ← ih hrest,
      Turn.length_of_pass hpass, Token.nesting_eq_turn]
    simp only [hzero]

theorem Arguments.size_eq {inside : List Token} {args : Args} (h : Arguments inside args) :
    args.size = if Token.blank inside then 0 else commasAtZero 0 inside + 1 := by
  have hlength {groups : List (List Token)} (hgroups : Groups inside groups) :
      groups.length = commasAtZero 0 inside + 1 := by
    rw [← splitTop_comma_eq_iff.mpr hgroups]
    exact length_splitFrom 0 inside
  cases h with
  | none hblank => exact (if_pos hblank).symm
  | keywords hgroups hpairs hkeys =>
    rw [if_neg (hgroups.not_blank (not_blank_of_keywords hpairs)), ← hlength hgroups]
    exact hpairs.length_eq.symm
  | positional hgroups hplain =>
    rw [if_neg (hgroups.not_blank fun group hgroup => (hplain group hgroup).1),
      ← hlength hgroups]
    exact List.length_map _

/-! ## Calls -/

/-- What the counts say about the tokens between the parentheses of a call. -/
structure CountsArguments (inside : List Token) (args : Args) : Prop where
  parensNeverBelow : ∀ front, front <+: inside → 0 ≤ parenLevel front
  parensClosed : parenLevel inside = 0
  /-- The function in front of the tokens has opened a parenthesis, which a
      bracket may have closed for the count. -/
  oneBelow : ∀ front, front <+: inside → -1 ≤ level front
  closed : level inside = 0
  size : args.size = if Token.blank inside then 0 else commasAtZero 0 inside + 1
  nested : OnlyBracket .paren inside → ProperlyNested inside
  agree : ProperlyNested inside →
    (∀ front, front <+: inside → 0 ≤ level front) ∧
      commasAtZero 0 inside = commasOutside [] inside

/-- A count of parentheses that is not zero anywhere stays above it. -/
theorem pos_of_parenLevel_ne {ts : List Token} {depth : Int} (hdepth : 0 < depth)
    (h : ∀ front, front <+: ts → depth + parenLevel front ≠ 0) :
    ∀ front, front <+: ts → 0 < depth + parenLevel front := by
  induction ts generalizing depth with
  | nil =>
    intro front hfront
    rw [List.prefix_nil.mp hfront, parenLevel_nil]
    omega
  | cons t ts ih =>
    rw [forall_prefix_cons] at h ⊢
    obtain ⟨-, h⟩ := h
    have hnow := h [] List.nil_prefix
    simp only [parenLevel_cons, parenLevel_nil, ← Int.add_assoc] at h hnow ⊢
    refine ⟨by omega, ih ?_ h⟩
    -- A step is at most one, so the count cannot jump over zero.
    have hcases := parenNesting_cases t
    omega

theorem countsArguments_of_call {head closing : Token} {inside after : List Token} {args : Args}
    (hsegment : IsSegment (head :: (inside ++ closing :: after))) (hhead : head.kind = .function)
    (hclosing : closing.kind = .closeParen)
    (hclosed : parenLevel (head :: (inside ++ [closing])) = 0)
    (hfirst : ∀ front, front <+: inside → parenLevel (head :: front) ≠ 0)
    (hafter : Token.blank after) (hargs : Arguments inside args) :
    CountsArguments inside args := by
  have hopens : head.nesting = 1 := by
    unfold Token.nesting
    rw [hhead]
  have hcloses : closing.nesting = -1 := by
    unfold Token.nesting
    rw [hclosing]
  have hends : closing.parenNesting = -1 := parenNesting_eq_neg_one_iff.mpr hclosing
  simp only [parenLevel_cons, parenLevel_append, parenLevel_nil, functionNesting hhead, hends]
    at hclosed hfirst
  -- The parenthesis of the function stays open until the closing one.
  have hparens := pos_of_parenLevel_ne Int.one_pos hfirst
  have hlevel : level inside = 0 := by
    have hzero := hsegment.closed
    rw [level_cons, level_append, level_cons, level_of_blank hafter, hopens, hcloses] at hzero
    omega
  have hbelow : ∀ front, front <+: inside → 0 ≤ parenLevel front := fun front hfront => by
    have hpos := hparens front hfront
    omega
  refine ⟨hbelow, by omega, fun front hfront => ?_, hlevel, hargs.size_eq, fun honly => ?_,
    fun hnested => ⟨fun front hfront => hnested.neverBelow hfront,
      commasAtZero_eq_commasOutside hnested⟩⟩
  · -- In the whole segment the count is not below zero, and the function adds one.
    have hprefix : head :: front <+: head :: (inside ++ closing :: after) :=
      List.cons_prefix_cons.mpr ⟨rfl, hfront.trans (List.prefix_append _ _)⟩
    have hge := hsegment.neverBelow _ hprefix
    rw [level_cons, hopens] at hge
    omega
  · refine properlyNested_of_onlyBracket honly (fun front hfront => ?_) hlevel
    rw [level_eq_parenLevel fun t ht => honly t (hfront.subset ht)]
    exact hbelow front hfront

end Grammar

open Token (withoutComments)

/-- The tokens between the first one and the last that is not white space. -/
def Token.between (ts : List Token) : List Token :=
  (ts.tail.reverse.dropWhile isSpace).tail.reverse

/-- The arguments of a call, and the tokens between its parentheses. -/
def Node.argued? (src : Text) : Node → Option (Args × List Token)
  | .call _ args pos =>
    some (args.getD .none, Token.between (withoutComments (Source.tokensAt src pos.offset)))
  | _ => none

/-- The arguments of all calls of a sheet. -/
def Sheet.argued (src : Text) (sheet : Sheet) : List (Args × List Token) :=
  (Sheet.members sheet).filterMap (Node.argued? src)

theorem Token.between_eq {head closing : Token} {inside after : List Token}
    (hclosing : closing.kind = .closeParen) (hafter : Token.blank after) :
    Token.between (head :: (inside ++ closing :: after)) = inside := by
  have hspace : ∀ t ∈ after.reverse, isSpace t = true := fun t ht =>
    blank_iff.mp hafter t (List.mem_reverse.mp ht)
  have hend : isSpace closing = false := isSpace_eq_false_iff.mpr (by rw [hclosing]; decide)
  rw [between, List.tail_cons, List.reverse_append, List.reverse_cons, List.append_assoc,
    List.dropWhile_append_of_pos hspace, List.singleton_append,
    List.dropWhile_cons_of_neg (by rw [hend]; decide), List.tail_cons, List.reverse_reverse]

namespace Grammar

theorem withoutComments_tokensAt {src : Text} {before after rest : List Token}
    {first mark : Token}
    (h : withoutComments (Lexer.lex 0 src) = before ++ first :: (rest ++ mark :: after))
    (hunmarked : ∀ t ∈ first :: rest, Segment.isMark t = false)
    (hmark : Segment.isMark mark = true) :
    withoutComments (Source.tokensAt src first.offset) = first :: rest := by
  rw [List.forall_mem_cons] at hunmarked
  have hkept : first.kind ≠ .comment := by
    have hmem : first ∈ withoutComments (Lexer.lex 0 src) := by
      rw [h]
      exact List.mem_append_right _ List.mem_cons_self
    exact bne_iff_ne.mp (List.mem_filter.mp hmem).2
  obtain ⟨front, body, back, hlex, hbody, hrun⟩ := exists_run h hunmarked.2
  rw [tokensAt_eq hlex hunmarked.1 hrun hmark, Token.withoutComments_cons_of_ne hkept, hbody]

/-- The counts of a call, from the tokens that it is read from. -/
theorem Reads.countsArguments {src : Text} {part inside : List Token} {n : Node} {args : Args}
    (h : Reads (Source.ofText src) part n)
    (hpart : part <:+: withoutComments (Lexer.lex 0 src))
    (hargued : n.argued? src = some (args, inside)) :
    (∃ head closing, head.kind = .function ∧ closing.kind = .closeParen ∧
      head :: (inside ++ [closing]) <:+: withoutComments (Lexer.lex 0 src)) ∧
      CountsArguments inside args := by
  cases h with
  | rule => cases hargued
  | @statement segment mark n hsegment hn hmark =>
    rcases hn with hn | hn
    · cases hn with
      | intro => cases hargued
    · cases hn with
      | @intro head closing body after given hhead hclosing hclosed hfirst hafter hargs =>
        obtain ⟨rfl, rfl⟩ := Prod.mk.inj (Option.some.inj hargued)
        have hinfix := hpart
        obtain ⟨before, behind, hpart⟩ := hpart
        have hsplit : withoutComments (Lexer.lex 0 src) =
            before ++ head :: ((body ++ closing :: after) ++ mark :: behind) := by
          rw [← hpart, List.append_assoc, List.append_assoc, List.singleton_append,
            List.cons_append]
        have htokens : withoutComments (Source.tokensAt src head.offset) =
            head :: (body ++ closing :: after) :=
          withoutComments_tokensAt hsplit hsegment.unmarked hmark
        have hinside :
            Token.between (withoutComments (Source.tokensAt src head.offset)) = body := by
          rw [htokens, Token.between_eq hclosing hafter]
        rw [show ((Source.ofText src).pos head.offset).offset = head.offset from rfl, hinside]
        refine ⟨⟨head, closing, hhead, hclosing, List.IsInfix.trans ?_ hinfix⟩,
          countsArguments_of_call hsegment hhead hclosing hclosed hfirst hafter hargs⟩
        exact List.IsPrefix.isInfix ⟨after ++ [mark], by simp⟩

/-! ## Runs -/

/-- A whole run of tokens in front of a mark: it begins behind another mark, or
    with the tokens. -/
structure IsRun (ts body : List Token) : Prop where
  unmarked : ∀ t ∈ body, Segment.isMark t = false
  bounded : ∃ before mark after, ts = before ++ (body ++ mark :: after) ∧
    Segment.isMark mark = true ∧ ∀ last ∈ before.getLast?, Segment.isMark last = true

theorem isClosed_of_foldlM {src : Source} {p p' : Progress} {segments : List Segment}
    (h : segments.foldlM (take src) p = .ok p') : ∀ s ∈ segments, IsClosed s := by
  induction segments generalizing p with
  | nil => exact fun _ hs => absurd hs List.not_mem_nil
  | cons s segments ih =>
    obtain ⟨next, htake, hrest⟩ := bind_eq_ok_iff.mp h
    exact List.forall_mem_cons.mpr ⟨isClosed_of_take htake, ih hrest⟩

section Cut

open Segment (isMark cutFrom)

variable {begun : List Token} {depth : Nat}

/-- Behind a mark the cut begins anew. -/
theorem isClosed_behind {before rest : List Token} {last : Token} (hlast : isMark last = true)
    (h : ∀ s ∈ cutFrom begun depth (before ++ last :: rest), IsClosed s) :
    ∀ s ∈ cutFrom [] 0 rest, IsClosed s := by
  induction before generalizing begun depth with
  | nil =>
    rw [List.nil_append, cutFrom, if_pos hlast, List.forall_mem_cons] at h
    exact h.2
  | cons t before ih =>
    rw [List.cons_append] at h
    by_cases hmark : isMark t = true
    · rw [cutFrom, if_pos hmark, List.forall_mem_cons] at h
      exact ih h.2
    · rcases cutFrom_cons _ depth (eq_false_of_ne_true hmark) with
        ⟨next, -, hcut⟩ | ⟨-, -, hcut⟩
      · rw [hcut] at h
        exact ih h
      · rw [hcut] at h
        exact (h _ (List.mem_singleton_self _)).elim

/-- The tokens up to the next mark make a segment. The induction is on those to
    come; the ones in front have begun it. -/
theorem isSegment_of_isClosed {body after : List Token} {mark : Token}
    (hbegun : IsBegun depth begun.reverse) (hbody : ∀ t ∈ body, isMark t = false)
    (hmark : isMark mark = true)
    (h : ∀ s ∈ cutFrom begun depth (body ++ mark :: after), IsClosed s) :
    IsSegment (begun.reverse ++ body) := by
  induction body generalizing begun depth with
  | nil =>
    rw [List.nil_append, cutFrom, if_pos hmark, List.forall_mem_cons] at h
    have hdepth : depth = 0 := h.1
    subst hdepth
    rw [List.append_nil]
    exact hbegun.isSegment
  | cons t body ih =>
    obtain ⟨ht, hbody⟩ := List.forall_mem_cons.mp hbody
    rw [List.cons_append] at h
    rcases cutFrom_cons _ depth ht with ⟨next, hsum, hcut⟩ | ⟨-, -, hcut⟩
    · rw [hcut] at h
      have hconcat := hbegun.concat ht hsum
      rw [← List.reverse_cons] at hconcat
      have hsegment := ih hconcat hbody h
      rwa [List.reverse_cons, List.append_assoc, List.singleton_append] at hsegment
    · rw [hcut] at h
      exact (h _ (List.mem_singleton_self _)).elim

end Cut

theorem IsRun.isSegment {src : Source} {ts body : List Token} {rules : Sheet}
    (h : IsRun ts body) (hsheet : sheet src ts = .ok rules) : IsSegment body := by
  obtain ⟨hbody, before, mark, after, rfl, hmark, hlast⟩ := h
  obtain ⟨p, hrun, -⟩ := bind_eq_ok_iff.mp hsheet
  have hclosed := isClosed_of_foldlM hrun
  -- The run begins with the tokens, or behind the mark at the end of `before`.
  have hcut : ∀ s ∈ Segment.cutFrom [] 0 (body ++ mark :: after), IsClosed s := by
    rcases List.eq_nil_or_concat before with rfl | ⟨front, last, rfl⟩
    · exact hclosed
    · rw [List.concat_eq_append, List.append_assoc, List.singleton_append] at hclosed
      exact isClosed_behind (hlast last (by simp)) hclosed
  exact isSegment_of_isClosed isBegun_nil hbody hmark hcut

end Grammar

open Grammar

/-- Brackets in an accepted source. In front of every semicolon and brace the
    count of both kinds has not gone below zero and is back at it, so a run with
    one kind of bracket is properly nested. Between the parentheses of a call
    the parentheses are closed by themselves, the count is at most one below
    zero, and there are as many arguments as commas at which it is zero, and one
    more. Where the tokens are properly nested, as they are without square
    brackets, the count does not go below zero and these are the commas outside
    of all brackets. -/
theorem parse_counts_brackets {src : Text} {sheet : Sheet} (h : parse src = .ok sheet) :
    (∀ body, IsRun (withoutComments (Lexer.lex 0 src)) body →
      IsSegment body ∧ ∀ b, OnlyBracket b body → ProperlyNested body) ∧
    ∀ args inside, (args, inside) ∈ Sheet.argued src sheet →
      (∃ head closing, head.kind = .function ∧ closing.kind = .closeParen ∧
        head :: (inside ++ [closing]) <:+: withoutComments (Lexer.lex 0 src)) ∧
      CountsArguments inside args := by
  refine ⟨fun body hrun => ?_, fun args inside hmem => ?_⟩
  · obtain ⟨ts, htokens, hderived⟩ := parse_eq_ok_iff.mp h
    obtain ⟨-, rfl⟩ := tokens_eq_ok_iff.mp htokens
    have hsegment := hrun.isSegment (sheet_eq_ok_iff.mpr hderived)
    exact ⟨hsegment, fun b honly =>
      properlyNested_of_onlyBracket honly hsegment.neverBelow hsegment.closed⟩
  · obtain ⟨n, hn, hargued⟩ := List.mem_filterMap.mp hmem
    obtain ⟨part, hpart, hreads⟩ := parse_reads h n hn
    exact hreads.countsArguments hpart hargued

/-- A call with groups of both kinds in one another, and commas in them. -/
theorem parse_counts_brackets_nested :
    let src := utf8 ".a \x7b f(g([1, 2], (3)), [x, (y, z)] /* , */ w); \x7d"
    ∃ sheet, parse src = .ok sheet ∧ ∃ args inside, (args, inside) ∈ Sheet.argued src sheet ∧
      ProperlyNested inside ∧ (∀ front, front <+: inside → 0 ≤ level front) ∧
      args.size = commasOutside [] inside + 1 ∧ args.size = 2 := by
  intro src
  have hargued : (parse src).toOption.map (fun sheet => (Sheet.argued src sheet).map fun p =>
      (p.1.size, Token.blank p.2, decide (ProperlyNested p.2))) = some [(2, false, true)] := by
    decide +kernel
  obtain ⟨sheet, hparse, hsheet⟩ := Option.map_eq_some_iff.mp hargued
  rw [toOption_eq_some_iff] at hparse
  obtain ⟨⟨args, inside⟩, hmem, hfacts⟩ : ∃ p ∈ Sheet.argued src sheet,
      (p.1.size, Token.blank p.2, decide (ProperlyNested p.2)) = (2, false, true) := by
    rw [← List.mem_map, hsheet]
    exact List.mem_singleton_self _
  obtain ⟨hsize, hblank, hnested⟩ : args.size = 2 ∧ Token.blank inside = false ∧
      decide (ProperlyNested inside) = true := by
    rwa [Prod.mk.injEq, Prod.mk.injEq] at hfacts
  have hnested := of_decide_eq_true hnested
  have hcounts := ((parse_counts_brackets hparse).2 args inside hmem).2
  obtain ⟨hbelow, hcommas⟩ := hcounts.agree hnested
  refine ⟨sheet, hparse, args, inside, hmem, hnested, hbelow, ?_, hsize⟩
  rw [← hcommas, hcounts.size, if_neg (by rw [hblank]; decide)]

/-- Whether the statements and selectors of a sheet are properly nested. -/
def Sheet.nested (src : Text) (sheet : Sheet) : List Bool :=
  (Sheet.offsets sheet).map fun offset => decide (ProperlyNested (Source.tokensAt src offset))

/-- Accepted are a call in whose argument the two kinds cross, a declaration
    and a selector in which a bracket closes a parenthesis, and a call with
    brackets the wrong way round. In the last one the count is below zero at
    the comma, and there is one argument. -/
theorem parse_accepts_crossed :
    let crossed := utf8 ".a \x7b f(([)]); \x7d"
    let value := utf8 ".a \x7b b: (]; \x7d"
    let selector := utf8 "a(] \x7b\x7d"
    let reversed := utf8 ".a \x7b f(x ], y [); \x7d"
    (parse crossed).toOption.map (Sheet.nested crossed) = some [true, false] ∧
      (parse value).toOption.map (Sheet.nested value) = some [true, false] ∧
      (parse selector).toOption.map (Sheet.nested selector) = some [false] ∧
      (parse reversed).toOption.map (Sheet.nested reversed) = some [true, false] ∧
      (parse reversed).toOption.map (fun sheet => (Sheet.argued reversed sheet).map fun p =>
        (p.1.size, p.2.map Token.kind, level (p.2.take 3))) =
        some [(1, [.ident, .whitespace, .closeBracket, .comma, .whitespace, .ident, .whitespace,
          .openBracket], -1)] := by
  decide +kernel

end MixinCss
