/-
  MixinCss.Proofs.Grammar.Document

  The parser accepts exactly the grammar. The parser takes one segment after
  the other and keeps a stack of open rules, so neither direction follows the
  tree directly:

    * what is derived is accepted, because the segments of an item change the
      innermost open rule and leave the rest of the stack alone
      (`Items.run`, `Block.run`, `Document.run`);
    * what is accepted is derived, because at every moment the tokens taken so
      far derive what the stack and the finished rules hold (`Reached`), one
      segment keeps this (`Reached.take`), and at the end the stack is empty.
-/

import MixinCss.Proofs.Grammar.Statement

namespace MixinCss.Grammar

open Segment (isMark cutFrom)

/-! ## Cutting -/

theorem nesting_cases (t : Token) : t.nesting = 1 ∨ t.nesting = -1 ∨ t.nesting = 0 := by
  unfold Token.nesting
  split <;> simp

theorem level_of_blank {ts : List Token} (h : Token.blank ts) : level ts = 0 := by
  induction ts with
  | nil => rfl
  | cons t ts ih =>
    rw [Token.blank_cons, Bool.and_eq_true, Token.isSpace_iff] at h
    have ht : t.nesting = 0 := by
      unfold Token.nesting
      rw [h.1]
    rw [level_cons, ht, ih h.2]
    rfl

theorem isMark_iff {t : Token} :
    isMark t = true ↔ t.kind = .semicolon ∨ t.kind = .openBrace ∨ t.kind = .closeBrace := by
  unfold isMark
  rw [Bool.or_eq_true, Bool.or_eq_true, beq_iff_eq, beq_iff_eq, beq_iff_eq, or_assoc]

theorem isMark_of_blank {ts : List Token} (h : Token.blank ts) : ∀ t ∈ ts, isMark t = false := by
  intro t ht
  have hspace := Token.isSpace_iff.mp (Token.blank_iff.mp h t ht)
  unfold isMark
  rw [hspace]
  rfl

/-- The beginning of a segment, in which `depth` parentheses and brackets are
    open. -/
structure IsBegun (depth : Nat) (ts : List Token) : Prop where
  unmarked : ∀ t ∈ ts, isMark t = false
  neverBelow : ∀ front, front <+: ts → 0 ≤ level front
  opened : level ts = depth

theorem IsBegun.isSegment {ts : List Token} (h : IsBegun 0 ts) : IsSegment ts :=
  ⟨h.unmarked, h.neverBelow, h.opened⟩

theorem isBegun_of_blank {ts : List Token} (h : Token.blank ts) : IsBegun 0 ts := by
  refine ⟨isMark_of_blank h, ?_, level_of_blank h⟩
  rintro front ⟨back, rfl⟩
  rw [Token.blank_append, Bool.and_eq_true] at h
  exact Int.le_of_eq (level_of_blank h.1).symm

theorem isBegun_nil : IsBegun 0 ([] : List Token).reverse := isBegun_of_blank Token.blank_nil

/-- One more token that is no mark. -/
theorem IsBegun.concat {depth next : Nat} {ts : List Token} {t : Token} (h : IsBegun depth ts)
    (ht : isMark t = false) (hnext : (next : Int) = depth + t.nesting) :
    IsBegun next (ts ++ [t]) := by
  have hlevel : level (ts ++ [t]) = next := by
    rw [level_append, level_cons, level_nil, h.opened]
    omega
  refine ⟨?_, ?_, hlevel⟩
  · intro u hu
    rw [List.mem_append, List.mem_singleton] at hu
    rcases hu with hu | rfl
    · exact h.unmarked u hu
    · exact ht
  · intro front hfront
    rcases List.prefix_concat_iff.mp hfront with rfl | hfront
    · rw [hlevel]
      omega
    · exact h.neverBelow front hfront

/-- White space in front of a segment is no part of it that counts. -/
theorem IsSegment.of_blank_append {lead ts : List Token} (hlead : Token.blank lead)
    (h : IsSegment (lead ++ ts)) : IsSegment ts := by
  have hlevel := level_of_blank hlead
  refine ⟨?_, ?_, ?_⟩
  · intro t ht
    exact h.unmarked t (List.mem_append_right lead ht)
  · intro front hfront
    have hbelow := h.neverBelow (lead ++ front) ((List.prefix_append_right_inj lead).mpr hfront)
    rw [level_append, hlevel] at hbelow
    omega
  · have hclosed := h.closed
    rw [level_append, hlevel] at hclosed
    omega

/-- A token that is no mark goes to the segment that has begun, at the nesting
    behind it, unless it closes what is not open. -/
theorem cutFrom_cons {t : Token} (ts : List Token) (depth : Nat) (ht : isMark t = false) :
    (∃ next : Nat, (next : Int) = depth + t.nesting ∧
      ∀ begun, cutFrom begun depth (t :: ts) = cutFrom (t :: begun) next ts) ∨
    t.nesting = -1 ∧ depth = 0 ∧ ∀ begun, cutFrom begun depth (t :: ts) = [.stray t] := by
  have hmark : ¬ isMark t = true := by
    rw [ht]
    decide
  simp only [cutFrom, if_neg hmark]
  rcases nesting_cases t with hnesting | hnesting | hnesting
  · simp only [if_pos hnesting]
    exact .inl ⟨depth + 1, by rw [hnesting]; rfl, fun begun => rfl⟩
  · have hopen : ¬ t.nesting = 1 := by omega
    simp only [if_neg hopen, if_pos hnesting]
    by_cases hdepth : depth = 0
    · exact .inr ⟨hnesting, hdepth, fun begun => if_pos hdepth⟩
    · exact .inl ⟨depth - 1, by rw [hnesting]; omega, fun begun => if_neg hdepth⟩
  · have hopen : ¬ t.nesting = 1 := by omega
    have hclose : ¬ t.nesting = -1 := by omega
    simp only [if_neg hopen, if_neg hclose]
    exact .inl ⟨depth, by rw [hnesting]; omega, fun begun => rfl⟩

/-- Tokens without marks all go to the segment that has begun. -/
theorem cutFrom_append {begun ts rest : List Token} {depth : Nat}
    (hunmarked : ∀ t ∈ ts, isMark t = false)
    (hbelow : ∀ front, front <+: ts → 0 ≤ (depth : Int) + level front) :
    cutFrom begun depth (ts ++ rest) =
      cutFrom (ts.reverse ++ begun) ((depth : Int) + level ts).toNat rest := by
  induction ts generalizing begun depth with
  | nil => simp
  | cons t ts ih =>
    rw [forall_prefix_cons] at hbelow
    obtain ⟨-, hbelow⟩ := hbelow
    rw [List.forall_mem_cons] at hunmarked
    have hnow := hbelow [] List.nil_prefix
    simp only [level_cons, level_nil] at hbelow hnow
    rw [List.cons_append]
    rcases cutFrom_cons (ts ++ rest) depth hunmarked.1 with
      ⟨next, hsum, hcut⟩ | ⟨hnesting, hdepth, -⟩
    · rw [hcut, ih hunmarked.2 (fun front hfront => by have hge := hbelow front hfront; omega)]
      rw [List.reverse_cons, List.append_assoc, List.singleton_append, level_cons]
      congr 1
      omega
    · omega

theorem cutFrom_segment (begun rest : List Token) {segment : List Token}
    (h : IsSegment segment) :
    cutFrom begun 0 (segment ++ rest) = cutFrom (segment.reverse ++ begun) 0 rest := by
  rw [cutFrom_append h.unmarked, h.closed]
  · rfl
  · intro front hfront
    have hge := h.neverBelow front hfront
    omega

/-! ## One segment -/

/-- Takes the segments of tokens that follow a blank beginning. -/
def runFrom (src : Source) (begun : List Token) (p : Progress) (ts : List Token) :
    Except Report Progress := (cutFrom begun 0 ts).foldlM (take src) p

/-- A space goes to the beginning of the next segment. -/
theorem runFrom_space {src : Source} {begun ts : List Token} {t : Token} (p : Progress)
    (ht : t.kind = .whitespace) :
    runFrom src begun p (t :: ts) = runFrom src (t :: begun) p ts := by
  have hblank : Token.blank [t] := by
    rw [Token.blank_cons, Token.isSpace_iff.mpr ht]
    rfl
  have hcut := cutFrom_segment begun ts (isBegun_of_blank hblank).isSegment
  unfold runFrom
  rw [← List.singleton_append, hcut, List.reverse_singleton, List.singleton_append]

/-- A segment is taken as a whole at the mark behind it. -/
theorem runFrom_segment {src : Source} {begun segment rest : List Token} {mark : Token}
    (p : Progress) (hsegment : IsSegment segment) (hmark : isMark mark = true) :
    runFrom src begun p (segment ++ mark :: rest) =
      (take src p (.ended (begun.reverse ++ segment) 0 mark) >>=
        fun p => runFrom src [] p rest) := by
  unfold runFrom
  rw [cutFrom_segment begun _ hsegment, cutFrom, if_pos hmark, List.foldlM_cons,
    List.reverse_append, List.reverse_reverse]

/-- The open rule with more nodes in it. -/
def Frame.add (frame : Frame) (nodes : List Node) : Frame :=
  { frame with children := frame.children ++ nodes }

@[simp] theorem Frame.add_nil (frame : Frame) : frame.add [] = frame := by
  unfold Frame.add
  rw [List.append_nil]

theorem Frame.add_cons (frame : Frame) (n : Node) (nodes : List Node) :
    frame.add (n :: nodes) = (frame.add [n]).add nodes := by
  unfold Frame.add
  rw [List.append_assoc, List.singleton_append]

/-- The rule goes to the innermost open rule, or to the top. -/
def Progress.place (p : Progress) (r : Rule) : Progress :=
  match p.stack with
  | [] => { p with rules := p.rules ++ [r] }
  | frame :: stack => { p with stack := frame.add [r.node] :: stack }

theorem closeRule_eq (src : Source) (frame : Frame) (stack : List Frame) (rules : List Rule)
    (mark : Token) :
    closeRule src ⟨frame :: stack, rules⟩ mark =
      .ok (Progress.place ⟨stack, rules⟩
        ⟨frame.selector, frame.children, src.pos frame.offset⟩) := by
  cases stack <;> rfl

theorem BeginsWith.trim {ts : List Token} {first : Token} (h : BeginsWith ts first) :
    ∃ rest, Token.trim ts = first :: rest := by
  obtain ⟨lead, rest, hlead, hfirst, rfl⟩ := h
  rw [Token.trim_blank_append hlead, Token.trim_cons (Token.isSpace_eq_false_iff.mpr hfirst)]
  exact ⟨_, rfl⟩

/-- A rule is opened by every selector that is not blank; only at the top it
    must not refer to a parent. -/
theorem openRule_eq_ok_iff {p p' : Progress} {body : List Token} {mark : Token} :
    openRule p body mark = .ok p' ↔
      ∃ first, BeginsWith body first ∧ (p.stack = [] → ascii '&' ∉ Token.raw body) ∧
        p' = { p with stack := ⟨Token.raw body, first.offset, []⟩ :: p.stack } := by
  constructor
  · intro h
    unfold openRule at h
    split at h
    · cases h
    · rename_i first ts htrim
      rw [← htrim, Token.raw_trim] at h
      obtain ⟨lead, rest, hlead, hfirst, rfl, -⟩ := Token.trim_eq_cons_iff.mp htrim
      dsimp only at h
      split at h
      · cases h
      · rename_i hparent
        refine ⟨first, ⟨lead, rest, hlead, Token.isSpace_eq_false_iff.mp hfirst, rfl⟩, ?_,
          (Except.ok.inj h).symm⟩
        intro hstack hmem
        exact hparent ⟨by rw [hstack]; rfl, List.contains_iff_mem.mpr hmem⟩
  · rintro ⟨first, hfirst, hparent, rfl⟩
    obtain ⟨ts, htrim⟩ := hfirst.trim
    unfold openRule
    rw [htrim]
    dsimp only
    rw [← htrim, Token.raw_trim]
    rw [if_neg]
    rintro ⟨hstack, hcontains⟩
    exact hparent (List.isEmpty_iff.mp hstack) (List.contains_iff_mem.mp hcontains)

theorem take_openBrace {src : Source} {p : Progress} {body : List Token} {mark : Token}
    (h : mark.kind = .openBrace) :
    take src p (.ended body 0 mark) = openRule p body mark := by
  simp only [take, h, ne_eq, not_true_eq_false, if_false]

theorem take_semicolon {src : Source} {p : Progress} {body : List Token} {mark : Token}
    (h : mark.kind = .semicolon) :
    take src p (.ended body 0 mark) = addStatement src true p body := by
  simp only [take, h, ne_eq, not_true_eq_false, if_false]

theorem take_closeBrace {src : Source} {p : Progress} {body : List Token} {mark : Token}
    (h : mark.kind = .closeBrace) :
    take src p (.ended body 0 mark) =
      if p.stack.isEmpty then .error (mark.offset, .unexpected mark.text)
      else addStatement src false p body >>= fun p => closeRule src p mark := by
  simp only [take, h, ne_eq, not_true_eq_false, if_false]
  split <;> rfl

/-- Everything in a segment is closed. -/
def IsClosed : Segment → Prop
  | .ended _ depth _ | .rest _ depth => depth = 0
  | .stray _ => False

/-- A segment in which something is open is refused. -/
theorem isClosed_of_take {src : Source} {p p' : Progress} {s : Segment}
    (h : take src p s = .ok p') : IsClosed s := by
  cases s with
  | ended body depth mark =>
    by_cases hdepth : depth = 0
    · exact hdepth
    · rw [take, if_pos hdepth] at h
      cases h
  | rest body depth =>
    by_cases hdepth : depth = 0
    · exact hdepth
    · rw [take, if_pos hdepth] at h
      cases h
  | stray closing => cases h

/-- What a segment adds to the rule in which it stands: nothing if it is blank,
    else one statement. -/
def Adds (src : Source) (terminated : Bool) (body : List Token) (nodes : List Node) : Prop :=
  Token.blank body ∧ nodes = [] ∨
    ∃ lead segment n, Token.blank lead ∧ body = lead ++ segment ∧ nodes = [n] ∧
      (Declares src segment n ∨ terminated = true ∧ Calls src segment n)

theorem addStatement_eq_ok_iff {src : Source} {terminated : Bool} {frame : Frame}
    {stack : List Frame} {rules : List Rule} {body : List Token} {p : Progress} :
    addStatement src terminated ⟨frame :: stack, rules⟩ body = .ok p ↔
      ∃ nodes, Adds src terminated body nodes ∧ p = ⟨frame.add nodes :: stack, rules⟩ := by
  unfold addStatement
  dsimp only
  rw [bind_eq_ok_iff]
  constructor
  · rintro ⟨node, hnode, hp⟩
    refine ⟨node.toList, ?_, (Except.ok.inj hp).symm⟩
    cases node with
    | none => exact .inl ⟨statement_eq_none_iff.mp hnode, rfl⟩
    | some n =>
      obtain ⟨lead, segment, hlead, hbody, hn⟩ := statement_eq_some_iff.mp hnode
      exact .inr ⟨lead, segment, n, hlead, hbody, rfl, hn⟩
  · rintro ⟨nodes, ⟨hblank, rfl⟩ | ⟨lead, segment, n, hlead, hbody, rfl, hn⟩, rfl⟩
    · exact ⟨none, statement_eq_none_iff.mpr hblank, rfl⟩
    · exact ⟨some n, statement_eq_some_iff.mpr ⟨lead, segment, hlead, hbody, hn⟩, rfl⟩

theorem addStatement_of_blank {src : Source} {terminated : Bool} {p : Progress}
    {body : List Token} (h : Token.blank body) : addStatement src terminated p body = .ok p := by
  obtain ⟨stack, rules⟩ := p
  cases stack with
  | nil =>
    unfold addStatement
    rw [Token.trim_eq_nil_iff.mpr h]
  | cons frame stack => exact addStatement_eq_ok_iff.mpr ⟨[], .inl ⟨h, rfl⟩, by rw [Frame.add_nil]⟩

/-! ## What is derived is accepted -/

section Run

variable {src : Source} {begun segment rest : List Token} {mark : Token} {frame : Frame}
  {stack : List Frame} {rules : List Rule} {nodes : List Node}

theorem isSegment_nil : IsSegment [] := isBegun_nil.isSegment

theorem adds_nothing {terminated : Bool} (h : Token.blank begun) :
    Adds src terminated (begun.reverse ++ []) [] := by
  refine .inl ⟨?_, rfl⟩
  rw [List.append_nil, Token.blank_reverse, h]

theorem adds_statement {terminated : Bool} {n : Node} (h : Token.blank begun)
    (hn : Declares src segment n ∨ terminated = true ∧ Calls src segment n) :
    Adds src terminated (begun.reverse ++ segment) [n] := by
  refine .inr ⟨begun.reverse, segment, n, ?_, rfl, rfl, hn⟩
  rw [Token.blank_reverse, h]

theorem runFrom_statement (hsegment : IsSegment segment) (hmark : mark.kind = .semicolon)
    (hadds : Adds src true (begun.reverse ++ segment) nodes) :
    runFrom src begun ⟨frame :: stack, rules⟩ (segment ++ mark :: rest) =
      runFrom src [] ⟨frame.add nodes :: stack, rules⟩ rest := by
  rw [runFrom_segment _ hsegment (isMark_iff.mpr (.inl hmark)), take_semicolon hmark,
    addStatement_eq_ok_iff.mpr ⟨nodes, hadds, rfl⟩]
  rfl

/-- A semicolon behind white space adds nothing, also outside of all rules. -/
theorem runFrom_semicolon {p : Progress} (hbegun : Token.blank begun)
    (hmark : mark.kind = .semicolon) :
    runFrom src begun p (mark :: rest) = runFrom src [] p rest := by
  have hbody : Token.blank (begun.reverse ++ []) := by
    rw [List.append_nil, Token.blank_reverse, hbegun]
  rw [← List.nil_append (mark :: rest),
    runFrom_segment p isSegment_nil (isMark_iff.mpr (.inl hmark)), take_semicolon hmark,
    addStatement_of_blank hbody]
  rfl

theorem runFrom_close (hsegment : IsSegment segment) (hmark : mark.kind = .closeBrace)
    (hadds : Adds src false (begun.reverse ++ segment) nodes) :
    runFrom src begun ⟨frame :: stack, rules⟩ (segment ++ mark :: rest) =
      runFrom src [] (Progress.place ⟨stack, rules⟩
        ⟨frame.selector, frame.children ++ nodes, src.pos frame.offset⟩) rest := by
  rw [runFrom_segment _ hsegment (isMark_iff.mpr (.inr (.inr hmark))), take_closeBrace hmark,
    addStatement_eq_ok_iff.mpr ⟨nodes, hadds, rfl⟩]
  exact congrArg (· >>= fun p => runFrom src [] p rest)
    (closeRule_eq src (frame.add nodes) stack rules mark)

theorem runFrom_open {p : Progress} {first : Token} (hbegun : Token.blank begun)
    (hsegment : IsSegment segment) (hfirst : BeginsWith segment first)
    (hmark : mark.kind = .openBrace) (hparent : p.stack = [] → ascii '&' ∉ Token.raw segment) :
    runFrom src begun p (segment ++ mark :: rest) =
      runFrom src [] { p with stack := ⟨Token.raw segment, first.offset, []⟩ :: p.stack } rest := by
  have hraw : Token.raw (begun.reverse ++ segment) = Token.raw segment := by
    unfold Token.raw
    rw [Token.trim_blank_append (by rw [Token.blank_reverse, hbegun])]
  have hbegins : BeginsWith (begun.reverse ++ segment) first := by
    obtain ⟨lead, ts, hlead, hspace, rfl⟩ := hfirst
    refine ⟨begun.reverse ++ lead, ts, ?_, hspace, by rw [List.append_assoc]⟩
    rw [Token.blank_append, Token.blank_reverse, hbegun, hlead]
    rfl
  have hopen : openRule p (begun.reverse ++ segment) mark =
      .ok { p with stack := ⟨Token.raw segment, first.offset, []⟩ :: p.stack } := by
    rw [openRule_eq_ok_iff, hraw]
    exact ⟨first, hbegins, hparent, rfl⟩
  rw [runFrom_segment _ hsegment (isMark_iff.mpr (.inr (.inl hmark))), take_openBrace hmark, hopen]
  rfl

end Run

theorem Final.adds {src : Source} {last : List Token} {final : List Node}
    (h : Final src last final) {begun : List Token} (hbegun : Token.blank begun) :
    IsSegment last ∧ Adds src false (begun.reverse ++ last) final := by
  cases h with
  | nothing => exact ⟨isSegment_nil, adds_nothing hbegun⟩
  | declaration hsegment hn => exact ⟨hsegment, adds_statement hbegun (.inl hn)⟩

mutual

/-- Items are added to the innermost open rule, whatever follows them. White
    space at their end begins the next segment. -/
theorem Items.run {src : Source} {ts : List Token} {nodes : List Node} :
    Items src ts nodes → ∀ {begun rest : List Token} {frame : Frame} {stack : List Frame}
      {rules : List Rule}, Token.blank begun →
      ∃ begun', Token.blank begun' ∧
        runFrom src begun ⟨frame :: stack, rules⟩ (ts ++ rest) =
          runFrom src begun' ⟨frame.add nodes :: stack, rules⟩ rest
  | .done, begun, rest, frame, stack, rules, hbegun => by
    rw [Frame.add_nil]
    exact ⟨begun, hbegun, rfl⟩
  | .space ht hrest, begun, rest, frame, stack, rules, hbegun => by
    rw [List.cons_append, runFrom_space _ ht]
    apply hrest.run
    rw [Token.blank_cons, Token.isSpace_iff.mpr ht, hbegun]
    rfl
  | .semicolon ht hrest, begun, rest, frame, stack, rules, hbegun => by
    rw [List.cons_append, runFrom_semicolon hbegun ht]
    exact hrest.run Token.blank_nil
  | .rule hrule hrest, begun, rest, frame, stack, rules, hbegun => by
    -- Inside of a rule the selector may refer to a parent.
    rw [Frame.add_cons, List.append_assoc,
      hrule.run hbegun (fun hstack => absurd hstack (List.cons_ne_nil _ _))]
    exact hrest.run Token.blank_nil
  | .statement hsegment hn hmark hrest, begun, rest, frame, stack, rules, hbegun => by
    rw [Frame.add_cons, List.append_assoc, List.cons_append,
      runFrom_statement hsegment hmark (adds_statement hbegun (hn.imp_right (.intro rfl)))]
    exact hrest.run Token.blank_nil

/-- A rule is placed whole, whatever follows it. -/
theorem Block.run {src : Source} {ts : List Token} {r : Rule} :
    Block src ts r → ∀ {begun rest : List Token} {p : Progress}, Token.blank begun →
      (p.stack = [] → ascii '&' ∉ r.selector) →
      runFrom src begun p (ts ++ rest) = runFrom src [] (p.place r) rest
  | .intro hsegment hfirst hopening hbody hlast hclosing, begun, rest, p, hbegun, hparent => by
    rw [List.append_assoc, List.cons_append, runFrom_open hbegun hsegment hfirst hopening hparent,
      List.append_assoc, List.append_assoc, List.singleton_append]
    obtain ⟨begun', hbegun', hrun⟩ := hbody.run Token.blank_nil
    -- What the body leaves begun stands in front of the final declaration.
    obtain ⟨hsegment', hadds⟩ := hlast.adds hbegun'
    rw [hrun, runFrom_close hsegment' hclosing hadds]
    rfl

end

/-- The rules of a sheet are placed at the top. -/
theorem Document.run {src : Source} {ts : List Token} {sheet : Sheet} (h : Document src ts sheet)
    {begun : List Token} {rules : List Rule} (hbegun : Token.blank begun) :
    runFrom src begun ⟨[], rules⟩ ts = .ok ⟨[], rules ++ sheet⟩ := by
  induction h generalizing begun rules with
  | done =>
    have hend : Token.trim begun.reverse = [] := by
      rw [Token.trim_eq_nil_iff, Token.blank_reverse, hbegun]
    simp [runFrom, cutFrom, take, finish, hend]
  | space ht _ ih =>
    rw [runFrom_space _ ht]
    apply ih
    rw [Token.blank_cons, Token.isSpace_iff.mpr ht, hbegun]
    rfl
  | semicolon ht _ ih =>
    rw [runFrom_semicolon hbegun ht]
    exact ih Token.blank_nil
  | rule hrule hparent _ ih =>
    rw [hrule.run hbegun (fun _ => hparent)]
    unfold Progress.place
    dsimp only
    rw [ih Token.blank_nil, List.append_assoc, List.singleton_append]

/-! ## What is accepted is derived -/

/-- The tokens taken so far derive the finished rules and, for every open rule,
    its selector and the nodes that it has by now. -/
inductive Reached (src : Source) : List Token → Progress → Prop where
  | top {ts : List Token} {rules : Sheet} (h : Document src ts rules) : Reached src ts ⟨[], rules⟩
  | inside {outer selector body : List Token} {first opening : Token} {stack : List Frame}
      {rules : Sheet} {nodes : List Node} (houter : Reached src outer ⟨stack, rules⟩)
      (hsegment : IsSegment selector) (hfirst : BeginsWith selector first)
      (hparent : stack = [] → ascii '&' ∉ Token.raw selector)
      (hopening : opening.kind = .openBrace) (hbody : Items src body nodes) :
      Reached src (outer ++ (selector ++ opening :: body))
        ⟨⟨Token.raw selector, first.offset, nodes⟩ :: stack, rules⟩

theorem items_of_blank {src : Source} {ts : List Token} (h : Token.blank ts) :
    Items src ts [] := by
  induction ts with
  | nil => exact .done
  | cons t ts ih =>
    rw [Token.blank_cons, Bool.and_eq_true, Token.isSpace_iff] at h
    exact .space h.1 (ih h.2)

theorem document_of_blank {src : Source} {ts : List Token} (h : Token.blank ts) :
    Document src ts [] := by
  induction ts with
  | nil => exact .done
  | cons t ts ih =>
    rw [Token.blank_cons, Bool.and_eq_true, Token.isSpace_iff] at h
    exact .space h.1 (ih h.2)

/-- What a semicolon adds stands among the items. -/
theorem Adds.items {src : Source} {body : List Token} {mark : Token} {nodes : List Node}
    (h : Adds src true body nodes) (hbody : IsSegment body) (hmark : mark.kind = .semicolon) :
    Items src (body ++ [mark]) nodes := by
  rcases h with ⟨hblank, rfl⟩ | ⟨lead, segment, n, hlead, rfl, rfl, hn⟩
  · exact (items_of_blank hblank).append (.semicolon hmark .done)
  · have hstatement := Items.statement (hbody.of_blank_append hlead)
      (hn.imp_right And.right) hmark .done
    rw [List.append_assoc]
    exact (items_of_blank hlead).append hstatement

/-- What a closing brace adds is the final declaration, behind white space. -/
theorem Adds.final {src : Source} {body : List Token} {nodes : List Node}
    (h : Adds src false body nodes) (hbody : IsSegment body) :
    ∃ lead last, body = lead ++ last ∧ Token.blank lead ∧ Final src last nodes := by
  rcases h with ⟨hblank, rfl⟩ | ⟨lead, segment, n, hlead, rfl, rfl, hn | hn⟩
  · exact ⟨body, [], (List.append_nil body).symm, hblank, .nothing⟩
  · exact ⟨lead, segment, rfl, hlead, .declaration (hbody.of_blank_append hlead) hn⟩
  · exact absurd hn.1 Bool.false_ne_true

namespace Reached

variable {src : Source} {ts : List Token} {p p' : Progress}

theorem document {rules : Sheet} (h : Reached src ts ⟨[], rules⟩) : Document src ts rules := by
  cases h with
  | top h => exact h

theorem add {frame : Frame} {stack : List Frame} {rules : Sheet} {more : List Token}
    {nodes : List Node} (h : Reached src ts ⟨frame :: stack, rules⟩)
    (hmore : Items src more nodes) :
    Reached src (ts ++ more) ⟨frame.add nodes :: stack, rules⟩ := by
  cases h with
  | inside houter hsegment hfirst hparent hopening hbody =>
    rw [List.append_assoc, List.append_assoc, List.cons_append]
    exact .inside houter hsegment hfirst hparent hopening (hbody.append hmore)

theorem place {more : List Token} {r : Rule} (h : Reached src ts p) (hrule : Block src more r)
    (hparent : p.stack = [] → ascii '&' ∉ r.selector) : Reached src (ts ++ more) (p.place r) := by
  obtain ⟨stack, rules⟩ := p
  cases stack with
  | nil =>
    have hdocument := h.document.append (.rule hrule (hparent rfl) .done)
    rw [List.append_nil] at hdocument
    exact .top hdocument
  | cons frame stack =>
    have hitems := Items.rule hrule .done
    rw [List.append_nil] at hitems
    exact h.add hitems

/-- A segment in front of a semicolon. -/
theorem takeSemicolon {body : List Token} {mark : Token} (h : Reached src ts p)
    (hbody : IsSegment body) (hmark : mark.kind = .semicolon)
    (htake : addStatement src true p body = .ok p') : Reached src (ts ++ (body ++ [mark])) p' := by
  obtain ⟨stack, rules⟩ := p
  cases stack with
  | nil =>
    unfold addStatement at htake
    dsimp only at htake
    split at htake
    · rename_i htrim
      cases htake
      have hblank := Token.trim_eq_nil_iff.mp htrim
      have hmore : Document src (body ++ [mark]) [] :=
        (document_of_blank hblank).append (.semicolon hmark .done)
      have hall := h.document.append hmore
      rw [List.append_nil] at hall
      exact .top hall
    · cases htake
  | cons frame stack =>
    obtain ⟨nodes, hadds, rfl⟩ := addStatement_eq_ok_iff.mp htake
    exact h.add (hadds.items hbody hmark)

/-- A segment in front of a closing brace. -/
theorem takeCloseBrace {frame : Frame} {stack : List Frame} {rules : Sheet} {body : List Token}
    {mark : Token} {nodes : List Node} (h : Reached src ts ⟨frame :: stack, rules⟩)
    (hbody : IsSegment body) (hmark : mark.kind = .closeBrace)
    (hadds : Adds src false body nodes) :
    Reached src (ts ++ (body ++ [mark])) (Progress.place ⟨stack, rules⟩
      ⟨frame.selector, frame.children ++ nodes, src.pos frame.offset⟩) := by
  obtain ⟨lead, last, rfl, hlead, hlast⟩ := hadds.final hbody
  cases h with
  | inside houter hsegment hfirst hparent hopening hitems =>
    -- The white space goes to the items, so that only the declaration is final.
    have hall := hitems.append (items_of_blank hlead)
    rw [List.append_nil] at hall
    have hrule := Block.intro hsegment hfirst hopening hall hlast hmark
    have hplaced := houter.place hrule hparent
    simp only [List.append_assoc, List.cons_append] at hplaced ⊢
    exact hplaced

/-- One segment keeps what is reached. -/
theorem take {body : List Token} {mark : Token} (h : Reached src ts p) (hbody : IsSegment body)
    (hmark : isMark mark = true) (htake : Grammar.take src p (.ended body 0 mark) = .ok p') :
    Reached src (ts ++ (body ++ [mark])) p' := by
  rcases isMark_iff.mp hmark with hkind | hkind | hkind
  · rw [take_semicolon hkind] at htake
    exact h.takeSemicolon hbody hkind htake
  · rw [take_openBrace hkind] at htake
    obtain ⟨first, hfirst, hparent, rfl⟩ := openRule_eq_ok_iff.mp htake
    exact .inside h hbody hfirst hparent hkind .done
  · rw [take_closeBrace hkind] at htake
    obtain ⟨stack, rules⟩ := p
    cases stack with
    | nil => cases htake
    | cons frame stack =>
      obtain ⟨_, hadd, hclose⟩ := bind_eq_ok_iff.mp htake
      obtain ⟨nodes, hadds, rfl⟩ := addStatement_eq_ok_iff.mp hadd
      rw [closeRule_eq] at hclose
      cases hclose
      exact h.takeCloseBrace hbody hkind hadds

/-- The end of the source. -/
theorem takeRest {body : List Token} {depth : Nat} (h : Reached src ts p)
    (htake : Grammar.take src p (.rest body depth) = .ok p') :
    Document src (ts ++ body) p'.rules := by
  unfold Grammar.take at htake
  dsimp only at htake
  split at htake
  · cases htake
  · unfold finish at htake
    split at htake
    · rename_i hstack htrim
      cases htake
      obtain ⟨_, rules⟩ := p
      subst hstack
      have hall := h.document.append (document_of_blank (Token.trim_eq_nil_iff.mp htrim))
      rwa [List.append_nil] at hall
    · cases htake
    · obtain ⟨_, -, hthrow⟩ := bind_eq_ok_iff.mp htake
      cases hthrow

/-- A whole run ends in a derived sheet. The induction is on the tokens to come;
    the tokens of the segment that has begun stand between them and those taken. -/
theorem run {begun rest : List Token} {depth : Nat} (h : Reached src ts p)
    (hbegun : IsBegun depth begun.reverse)
    (hrun : (cutFrom begun depth rest).foldlM (Grammar.take src) p = .ok p') :
    Document src (ts ++ (begun.reverse ++ rest)) p'.rules := by
  induction rest generalizing begun depth ts p with
  | nil =>
    rw [List.append_nil]
    obtain ⟨_, htake, hpure⟩ := bind_eq_ok_iff.mp hrun
    cases hpure
    exact h.takeRest htake
  | cons t rest ih =>
    have hcons : begun.reverse ++ t :: rest = (t :: begun).reverse ++ rest := by
      rw [List.reverse_cons, List.append_assoc, List.singleton_append]
    by_cases hmark : isMark t = true
    · rw [cutFrom, if_pos hmark] at hrun
      obtain ⟨p₁, htake, hrest⟩ := bind_eq_ok_iff.mp hrun
      have hdepth : depth = 0 := isClosed_of_take htake
      subst hdepth
      have hnext := ih (h.take hbegun.isSegment hmark htake) isBegun_nil hrest
      rwa [List.append_assoc, List.append_assoc, List.singleton_append] at hnext
    · -- The segment goes on with `t`, at the nesting behind it.
      have hunmarked := eq_false_of_ne_true hmark
      rw [hcons]
      rcases cutFrom_cons rest depth hunmarked with ⟨next, hsum, hcut⟩ | ⟨-, -, hcut⟩
      · rw [hcut] at hrun
        refine ih h ?_ hrun
        rw [List.reverse_cons]
        exact hbegun.concat hunmarked hsum
      · rw [hcut] at hrun
        cases hrun

end Reached

/-! ## Documents -/

/-- Tokens are read as a sheet exactly if they derive it. -/
theorem sheet_eq_ok_iff {src : Source} {ts : List Token} {rules : Sheet} :
    sheet src ts = .ok rules ↔ Document src ts rules := by
  unfold sheet
  rw [bind_eq_ok_iff]
  constructor
  · rintro ⟨p, hrun, hrules⟩
    cases hrules
    exact (Reached.top .done).run isBegun_nil hrun
  · intro h
    exact ⟨⟨[], rules⟩, h.run Token.blank_nil, rfl⟩

/-- The tokens of a source are those of the lexer without comments. A source is
    refused here only for a bad token. -/
theorem tokens_eq_ok_iff {source : Text} {ts : List Token} :
    tokens source = .ok ts ↔
      (∀ t ∈ Lexer.lex 0 source, t.kind ≠ .badString ∧ t.kind ≠ .badUrl) ∧
        ts = (Lexer.lex 0 source).filter fun t => t.kind != .comment := by
  unfold tokens
  dsimp only
  split
  · rename_i report hbad
    obtain ⟨t, ht, hreport⟩ := List.exists_of_findSome?_eq_some hbad
    refine ⟨fun h => (nomatch h), ?_⟩
    rintro ⟨hgood, -⟩
    obtain ⟨hstring, hurl⟩ := hgood t ht
    split at hreport
    · exact absurd ‹_› hstring
    · exact absurd ‹_› hurl
    · cases hreport
  · rename_i hgood
    rw [List.findSome?_eq_none_iff] at hgood
    rw [Except.ok.injEq, eq_comm]
    refine ⟨fun h => ⟨?_, h⟩, And.right⟩
    intro t ht
    have hnone := hgood t ht
    split at hnone
    · cases hnone
    · cases hnone
    · exact ⟨‹_›, ‹_›⟩

end MixinCss.Grammar

namespace MixinCss

open Grammar

/-- A parsed source has good tokens that derive its sheet. -/
theorem parse_eq_ok_iff {source : Text} {sheet : Sheet} :
    parse source = .ok sheet ↔
      ∃ ts, tokens source = .ok ts ∧ Document (Source.ofText source) ts sheet := by
  have hread : parse source = .ok sheet ↔ Grammar.read source = .ok sheet := by
    unfold parse
    split <;> simp_all
  rw [hread]
  unfold Grammar.read
  rw [bind_eq_ok_iff]
  exact exists_congr fun ts => and_congr_right fun _ => sheet_eq_ok_iff

/-- The parser accepts exactly its grammar, and the sheet that it gives is the
    one that the tokens derive. -/
theorem parse_eq_ok_iff_derived (source : Text) (sheet : Sheet) :
    parse source = .ok sheet ↔
      (∀ t ∈ Lexer.lex 0 source, t.kind ≠ .badString ∧ t.kind ≠ .badUrl) ∧
        Document (Source.ofText source)
          ((Lexer.lex 0 source).filter fun t => t.kind != .comment) sheet := by
  rw [parse_eq_ok_iff]
  constructor
  · rintro ⟨ts, htokens, hderived⟩
    obtain ⟨hgood, rfl⟩ := tokens_eq_ok_iff.mp htokens
    exact ⟨hgood, hderived⟩
  · rintro ⟨hgood, hderived⟩
    exact ⟨_, tokens_eq_ok_iff.mpr ⟨hgood, rfl⟩, hderived⟩

end MixinCss
