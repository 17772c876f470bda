/-
  MixinCss.Proofs.Grammar.InRange

  The walk over the tokens reads every source as the parser does
  (`read_eq_lift`). The parser has no index that could be out of range and no
  loop that could stall, so the walk has none either.

  What is read between two marks is compared first, function by function. For
  the loops, the walk from an index on stands beside the parser's run over the
  tokens from this index on (`runAt`): a statement does to the open rules what
  the parser does (`statement_agrees`), and so does the rest of a block
  (`children_agrees`).
-/

import MixinCss.Proofs.Grammar.Document
import MixinCss.Proofs.Grammar.Walk
import MixinCss.Proofs.Token.Seams

namespace MixinCss.Grammar.Walk

section Lift

variable {α β : Type}

theorem lift_bind (x : Except Report α) (f : α → Except Report β) :
    lift (x >>= f) = lift x >>= fun a => lift (f a) := by
  cases x <;> rfl

theorem lift_map (x : Except Report α) (f : α → β) : lift (x.map f) = (lift x).map f := by
  cases x <;> rfl

theorem lift_foldlM (f : β → α → Except Report β) (b : β) (xs : List α) :
    lift (xs.foldlM f b) = xs.foldlM (fun b a => lift (f b a)) b := by
  induction xs generalizing b with
  | nil => rfl
  | cons a xs ih =>
    rw [List.foldlM_cons, List.foldlM_cons, lift_bind]
    exact bind_congr_ok fun next _ => ih next

/-! ## Access -/

theorem item_eq {xs : List α} {i : Nat} {x : α} (h : xs[i]? = some x) : item xs i = .ok x := by
  rw [item, h]

theorem item_zero (x : α) (xs : List α) : item (x :: xs) 0 = .ok x := rfl

theorem slice_eq {xs : List α} {i j : Nat} (hij : i ≤ j) (hj : j ≤ xs.length) :
    slice xs i j = .ok ((xs.take j).drop i) := if_pos ⟨hij, hj⟩

theorem slice_append (front mid back : List α) :
    slice (front ++ (mid ++ back)) front.length (front.length + mid.length) = .ok mid := by
  rw [slice_eq (Nat.le_add_right _ _) (by simp only [List.length_append]; omega),
    ← List.append_assoc, ← List.length_append, List.take_left, List.drop_left]

theorem slice_tail (x : α) (xs : List α) : slice (x :: xs) 1 (x :: xs).length = .ok xs := by
  rw [slice_eq (by simp) (Nat.le_refl _), List.take_length, List.drop_one, List.tail_cons]

end Lift

/-- The lines that begin at or before an offset are those in front of the first
    that begins behind it. There is one, and the last of them begins at or before
    the offset. -/
theorem exists_line (starts : List Nat) (offset : Nat) :
    ∃ line start, (0 :: starts).findIdx (offset < ·) = line + 1 ∧
      (0 :: starts)[line]? = some start ∧ start ≤ offset ∧
      ((0 :: starts).takeWhile (· ≤ offset)).length = line + 1 ∧
      ((0 :: starts).takeWhile (· ≤ offset)).getLast? = some start := by
  have htaken : (0 :: starts).takeWhile (· ≤ offset) =
      (0 :: starts).take ((0 :: starts).findIdx (offset < ·)) := by
    rw [List.takeWhile_eq_take_findIdx_not]
    congr 2
    funext start
    rw [← decide_not]
    exact decide_eq_decide.mpr Nat.not_le
  have hfound : (0 :: starts).findIdx (offset < ·) = starts.findIdx (offset < ·) + 1 := by
    rw [List.findIdx_cons]
    simp
  have hline : starts.findIdx (offset < ·) < (0 :: starts).length :=
    Nat.lt_succ_of_le List.findIdx_le_length
  refine ⟨_, _, hfound, List.getElem?_eq_getElem hline, ?_, ?_, ?_⟩
  · have hbefore : starts.findIdx (offset < ·) < (0 :: starts).findIdx (offset < ·) := by omega
    simpa using List.not_of_lt_findIdx hbefore
  · rw [htaken, hfound, List.length_take]
    omega
  · rw [htaken, hfound, List.getLast?_take, if_neg (Nat.succ_ne_zero _), Nat.add_sub_cancel,
      List.getElem?_eq_getElem hline, Option.some_or]

theorem place_eq {text : Text} {offset : Nat} (h : offset ≤ text.length) :
    place (Source.ofText text) offset = .ok ((Source.ofText text).pos offset) := by
  obtain ⟨line, start, hfound, hitem, hstart, hlength, hlast⟩ :=
    exists_line (lineStartsFrom 0 text) offset
  have hslice : slice (Source.ofText text).text start offset =
      .ok ((text.take offset).drop start) := slice_eq hstart h
  have hstarts : (Source.ofText text).starts = 0 :: lineStartsFrom 0 text := rfl
  rw [place, Source.pos, hstarts, hfound, Nat.add_sub_cancel, item_eq hitem, ok_bind, hslice,
    ok_bind, hlast, hlength, List.drop_take, Nat.max_eq_right (Nat.le_add_left 1 _)]
  rfl

example : place (Source.ofText []) 1 = .error .outOfRange := rfl

/-- Every token has its place in the source. -/
def Placed (src : Source) (ts : List Token) : Prop :=
  ∀ t ∈ ts, place src t.offset = .ok (src.pos t.offset)

/-! ## Arguments -/

theorem keyword_eq (t : Token) (ts : List Token) :
    keyword (t :: ts) = .ok (keyword? (t :: ts)) := by
  rw [keyword, item_zero, ok_bind, keyword?]
  split
  · rw [slice_tail, ok_bind]
    cases Token.trim ts with
    | nil => rfl
    | cons colon rest =>
      rw [if_neg (by simp), item_zero, ok_bind, slice_tail, ok_bind]
      dsimp only
      split <;> rfl
  · rfl

theorem part_eq {ts : List Token} (h : ts ≠ []) : part ts = .ok (atom ts) := by
  unfold part atom
  cases reference? ts with
  | some v => rfl
  | none =>
    cases ts with
    | nil => exact absurd rfl h
    | cons t ts =>
      cases ts with
      | nil => rfl
      | cons t' ts => exact if_pos (by simp)

example : part [] = .error .outOfRange := rfl

theorem value_eq (ts : List Token) : value ts = .ok (valueOfArgument ts) := by
  rw [value, valueOfArgument]
  have hparts : ∀ groups : List (List Token), (∀ g ∈ groups, g ≠ []) →
      groups.mapM part = .ok (groups.map atom) := by
    intro groups hgroups
    induction groups with
    | nil => rfl
    | cons g groups ih =>
      obtain ⟨hg, hgroups⟩ := List.forall_mem_cons.mp hgroups
      rw [List.mapM_cons, part_eq hg, ok_bind, ih hgroups, ok_bind, List.map_cons]
      rfl
  rw [hparts _ fun g hg => by simpa using (List.mem_filter.mp hg).2, ok_bind]
  rfl

theorem argument_eq (name : Text) (offset : Nat) (args : List Value × List Keyword)
    (group : List Token) :
    argument name offset args group = lift (addArgument name offset args group) := by
  rw [argument, addArgument]
  cases Token.trim group with
  | nil => rfl
  | cons t ts =>
    dsimp only
    rw [if_neg (by simp), keyword_eq, ok_bind]
    cases keyword? (t :: ts) with
    | none =>
      dsimp only
      rw [value_eq]
      rfl
    | some pair =>
      obtain ⟨key, rest⟩ := pair
      dsimp only
      rw [item_zero, ok_bind, ok_bind, value_eq]
      split
      · rfl
      · split <;> rfl

theorem arguments_eq (name : Text) (offset : Nat) (inside : List Token) :
    arguments name offset inside = lift (Grammar.arguments name offset inside) := by
  rw [arguments, Grammar.arguments]
  dsimp only
  split
  · rfl
  · rw [lift_bind, lift_foldlM]
    simp only [← argument_eq]
    refine bind_congr_ok fun found _ => ?_
    obtain ⟨values, pairs⟩ := found
    cases values <;> cases pairs <;> rfl

/-! ## Statements -/

theorem closingFrom_eq {depth : Nat} (hdepth : 1 ≤ depth) (i : Nat) (ts : List Token) :
    closingFrom depth i ts = (untilClose depth ts).map fun found => i + found.1.length := by
  induction ts generalizing depth i with
  | nil => rfl
  | cons t ts ih =>
    rw [closingFrom]
    rcases untilClose_cons hdepth t ts with ⟨next, hnext, hsum, hcons⟩ | ⟨hkind, hone, hcons⟩
    · -- The count behind `t` is still positive, so it is not zero here.
      rw [if_neg (by omega), ← hsum, ih hnext, hcons, Option.map_map]
      congr 1
      funext found
      rw [Function.comp_apply, List.length_cons, Nat.add_assoc, Nat.add_comm 1]
    · have hnesting := parenNesting_eq_neg_one_iff.mpr hkind
      rw [if_pos ⟨hkind, by rw [hnesting]; omega⟩, hcons]
      rfl

variable {src : Source}

/-- The slices of a call are cut at the parenthesis that the search finds. -/
theorem call_eq {head : Token} {ts : List Token} (hhead : head.kind = .function)
    (hplace : place src head.offset = .ok (src.pos head.offset)) :
    call src (head :: ts) = lift (Grammar.call src head ts) := by
  -- The function itself opens the parenthesis from which the parser counts.
  have hclosing : closingFrom 0 0 (head :: ts) =
      (untilClose 1 ts).map fun found => 1 + found.1.length := by
    have hnesting := functionNesting hhead
    rw [closingFrom, if_neg (by rw [hhead]; rintro ⟨hkind, -⟩; cases hkind), hnesting]
    exact closingFrom_eq (Nat.le_refl 1) 1 ts
  rw [call, item_zero, ok_bind, Grammar.call, hclosing]
  cases huntil : untilClose 1 ts with
  | none => rfl
  | some found =>
    obtain ⟨inside, after⟩ := found
    obtain ⟨closing, rfl, -, -, -⟩ := untilClose_sound (Nat.le_refl 1) huntil
    -- Both slices lie in the tokens, since the parenthesis that is found does.
    have hafter : slice (head :: (inside ++ closing :: after)) (1 + inside.length + 1)
        (head :: (inside ++ closing :: after)).length = .ok after := by
      have hcut := slice_append (head :: (inside ++ [closing])) after []
      simp only [List.length_cons, List.length_append, List.append_nil, List.cons_append,
        List.append_assoc, List.nil_append, List.length_nil] at hcut ⊢
      rw [← hcut]
      congr 1 <;> omega
    have hinside : slice (head :: (inside ++ closing :: after)) 1 (1 + inside.length) =
        .ok inside := slice_append [head] inside (closing :: after)
    rw [Option.map_some]
    dsimp only
    rw [hafter, ok_bind]
    cases Token.trim after with
    | nil =>
      dsimp only
      rw [if_pos List.isEmpty_nil, hinside, ok_bind, arguments_eq, hplace]
      cases Grammar.arguments head.functionName head.offset inside <;> rfl
    | cons t rest => rfl

theorem declaration_eq {head : Token} {ts : List Token}
    (hplace : place src head.offset = .ok (src.pos head.offset)) :
    declaration src (head :: ts) = lift (Grammar.declaration src head ts) := by
  rw [declaration, item_zero, ok_bind, slice_tail, ok_bind, Grammar.declaration]
  cases Token.trim ts with
  | nil => rfl
  | cons colon rest =>
    dsimp only
    rw [if_neg (by simp), item_zero, ok_bind, slice_tail, ok_bind, hplace]
    split
    · split <;> rfl
    · rfl

theorem inline_eq {body : List Token} (hplaced : Placed src body) (terminated : Bool) :
    inline src false terminated body = lift (Grammar.statement src terminated body) := by
  rw [inline, Grammar.statement]
  cases htrim : Token.trim body with
  | nil => rfl
  | cons head ts =>
    have hplace := hplaced head (Token.mem_of_mem_trim (by rw [htrim]; exact List.mem_cons_self))
    dsimp only
    rw [if_neg (by simp), item_zero, ok_bind, if_neg Bool.false_ne_true]
    cases hkind : head.kind with
    | function =>
      dsimp only
      rw [call_eq hkind hplace, ← lift_map]
      split <;> rfl
    | ident =>
      dsimp only
      rw [declaration_eq hplace, lift_map]
    | customProperty =>
      dsimp only
      rw [declaration_eq hplace, lift_map]
    | _ => rfl

/-- A statement goes to the innermost open rule; at the top only rules count. -/
def grow (p : Progress) : Option Node → Progress
  | none => p
  | some n =>
    match p.stack, n with
    | frame :: stack, n => { p with stack := frame.add [n] :: stack }
    | [], .rule selector children pos =>
      { p with rules := p.rules ++ [⟨selector, children, pos⟩] }
    | [], _ => p

theorem grow_frame (frame : Frame) (stack : List Frame) (rules : List Rule) (node : Option Node) :
    grow ⟨frame :: stack, rules⟩ node = ⟨frame.add node.toList :: stack, rules⟩ := by
  cases node with
  | none => rw [Option.toList_none, Frame.add_nil, grow]
  | some n => rfl

theorem grow_rule (p : Progress) (r : Rule) : grow p (some r.node) = p.place r := by
  obtain ⟨stack, rules⟩ := p
  cases stack <;> rfl

/-- A statement is added to the open rules as the parser does. -/
theorem inline_grow {p : Progress} {body : List Token} (hplaced : Placed src body)
    (terminated : Bool) :
    (inline src p.stack.isEmpty terminated body).map (grow p) =
      lift (addStatement src terminated p body) := by
  obtain ⟨stack, rules⟩ := p
  cases stack with
  | nil =>
    rw [inline, addStatement]
    cases htrim : Token.trim body with
    | nil => rfl
    | cons t ts => rfl
  | cons frame stack =>
    rw [List.isEmpty_cons, inline_eq hplaced, addStatement]
    cases Grammar.statement src terminated body with
    | error report => rfl
    | ok node => exact congrArg Except.ok (grow_frame frame stack rules node)

/-- Something that is open has been opened by a token, so there is one. -/
theorem unterminated_eq {α : Type} {body : List Token} (h : ¬ Token.blank body) :
    (unterminated body : Except Stop α) = .error (.refused (leftOpen body)) := by
  rw [unterminated, leftOpen]
  cases htrim : Token.trim body with
  | nil => exact absurd (Token.trim_eq_nil_iff.mp htrim) h
  | cons t ts =>
    dsimp only
    rw [item_zero, ok_bind]
    split <;> rfl

/-! ## Marks -/

section Index

open Segment (isMark cutFrom)

variable {ts rest : List Token} {t : Token} {i : Nat}

theorem getElem?_of_drop (h : ts.drop i = t :: rest) : ts[i]? = some t := by
  rw [← List.head?_drop, h, List.head?_cons]

theorem lt_of_drop (h : ts.drop i = t :: rest) : i < ts.length := by
  have hlength := congrArg List.length h
  rw [List.length_drop, List.length_cons] at hlength
  omega

theorem drop_succ (h : ts.drop i = t :: rest) : ts.drop (i + 1) = rest := by
  rw [← List.tail_drop, h, List.tail_cons]

theorem skipSpace_cons (h : ts.drop i = t :: rest) :
    skipSpace ts i = if t.kind = .whitespace then skipSpace ts (i + 1) else .ok i := by
  rw [skipSpace, dif_pos (lt_of_drop h), item_eq (getElem?_of_drop h), ok_bind]
  rfl

theorem scan_cons (h : ts.drop i = t :: rest) (depth : Nat) :
    scan ts i depth =
      if t.nesting = 1 then scan ts (i + 1) (depth + 1)
      else if t.nesting = -1 then
        if depth = 0 then refuse t.offset (.unexpected t.text) else scan ts (i + 1) (depth - 1)
      else if isMark t then .ok (i, depth)
      else scan ts (i + 1) depth := by
  rw [scan, dif_pos (lt_of_drop h), item_eq (getElem?_of_drop h), ok_bind]
  rfl

theorem scan_next (h : ts.drop i = t :: rest) (ht : isMark t = false) {depth next : Nat}
    (hnext : (next : Int) = depth + t.nesting) : scan ts i depth = scan ts (i + 1) next := by
  rw [scan_cons h]
  rcases nesting_cases t with hnesting | hnesting | hnesting
  · rw [if_pos hnesting]
    congr 1
    omega
  · rw [if_neg (by omega), if_pos hnesting, if_neg (by omega)]
    congr 1
    omega
  · rw [if_neg (by omega), if_neg (by omega), ht, if_neg Bool.false_ne_true]
    congr 1
    omega

theorem nesting_of_isMark (h : isMark t = true) : t.nesting = 0 := by
  unfold Token.nesting
  rcases isMark_iff.mp h with hkind | hkind | hkind <;> rw [hkind]

/-- A scan ends where the cut ends its first segment, whatever has begun it. -/
theorem scan_cases (hrest : ts.drop i = rest) (depth : Nat) :
    (∃ t, scan ts i depth = refuse t.offset (.unexpected t.text) ∧
      ∀ begun, cutFrom begun depth rest = [.stray t]) ∨
    ∃ (body : List Token) (next : Nat), (next : Int) = depth + level body ∧
      scan ts i depth = .ok (i + body.length, next) ∧
      ((∃ mark after, rest = body ++ mark :: after ∧ isMark mark = true ∧
          ∀ begun, cutFrom begun depth rest =
            .ended (begun.reverse ++ body) next mark :: cutFrom [] 0 after) ∨
        rest = body ∧
          ∀ begun, cutFrom begun depth rest = [.rest (begun.reverse ++ body) next]) := by
  induction rest generalizing i depth with
  | nil =>
    have hend : ¬ i < ts.length := Nat.not_lt.mpr (List.drop_eq_nil_iff.mp hrest)
    refine .inr ⟨[], depth, by simp, ?_, .inr ⟨rfl, fun begun => ?_⟩⟩
    · rw [scan, dif_neg hend]
      rfl
    · rw [cutFrom, List.append_nil]
  | cons t rest ih =>
    by_cases hmark : isMark t = true
    · -- The walk asks for brackets first, but no mark is one.
      have hnesting := nesting_of_isMark hmark
      refine .inr ⟨[], depth, by simp, ?_, .inl ⟨t, rest, rfl, hmark, fun begun => ?_⟩⟩
      · rw [scan_cons hrest, if_neg (by omega), if_neg (by omega), if_pos hmark]
        rfl
      · rw [cutFrom, if_pos hmark, List.append_nil]
    · have hunmarked := eq_false_of_ne_true hmark
      rcases cutFrom_cons rest depth hunmarked with
        ⟨next, hsum, hcut⟩ | ⟨hnesting, hdepth, hcut⟩
      · rw [scan_next hrest hunmarked hsum]
        simp only [hcut]
        -- What is found behind `t` has `t` in front of it here.
        rcases ih (drop_succ hrest) next with
          ⟨stray, hscan, hsegment⟩ | ⟨body, final, hfinal, hscan, hfound⟩
        · exact .inl ⟨stray, hscan, fun begun => hsegment (t :: begun)⟩
        · have hlevel : (final : Int) = depth + level (t :: body) := by
            rw [level_cons]
            omega
          have hstop : scan ts (i + 1) next = .ok (i + (t :: body).length, final) := by
            rw [hscan, List.length_cons, Nat.add_assoc, Nat.add_comm 1]
          refine .inr ⟨t :: body, final, hlevel, hstop, ?_⟩
          rcases hfound with ⟨mark, after, rfl, hmark, hsegment⟩ | ⟨rfl, hsegment⟩
          · refine .inl ⟨mark, after, rfl, hmark, fun begun => ?_⟩
            rw [hsegment, List.reverse_cons, List.append_assoc, List.singleton_append]
          · refine .inr ⟨rfl, fun begun => ?_⟩
            rw [hsegment, List.reverse_cons, List.append_assoc, List.singleton_append]
      · refine .inl ⟨t, ?_, hcut⟩
        rw [scan_cons hrest, if_neg (by omega), if_pos hnesting, if_pos hdepth]

end Index

/-! ## The parser's run from an index on -/

/-- What the parser makes of the tokens from an index on. -/
def runAt (src : Source) (ts : List Token) (p : Progress) (i : Nat) : Except Report Progress :=
  runFrom src [] p (ts.drop i)

section Blank

variable {lead body : List Token}

/-- White space in front of a segment does not matter. -/
theorem take_ended_blank (hlead : Token.blank lead) (p : Progress) (depth : Nat) (mark : Token) :
    take src p (.ended (lead ++ body) depth mark) = take src p (.ended body depth mark) := by
  simp only [take, leftOpen, openRule, addStatement, Grammar.statement,
    Token.trim_blank_append hlead]

theorem take_rest_blank (hlead : Token.blank lead) (p : Progress) (depth : Nat) :
    take src p (.rest (lead ++ body) depth) = take src p (.rest body depth) := by
  simp only [take, finish, leftOpen, addStatement, Grammar.statement,
    Token.trim_blank_append hlead]

theorem runFrom_blank {begun : List Token} (h : Token.blank begun) (p : Progress)
    (ts : List Token) : runFrom src begun p ts = runFrom src [] p ts := by
  have hlead : Token.blank begun.reverse := by rwa [Token.blank_reverse]
  unfold runFrom
  rcases scan_cases (List.drop_zero (l := ts)) 0 with
    ⟨t, -, hcut⟩ | ⟨body, next, -, -, ⟨mark, after, -, -, hcut⟩ | ⟨-, hcut⟩⟩
  · rw [hcut, hcut]
  · rw [hcut, hcut, List.foldlM_cons, List.foldlM_cons, take_ended_blank hlead]
    rfl
  · rw [hcut, hcut, List.foldlM_cons, List.foldlM_cons, take_rest_blank hlead]
    rfl

end Blank

/-- White space is passed over without a change. -/
theorem skipSpace_eq (src : Source) {ts : List Token} {i : Nat} (hi : i ≤ ts.length) :
    ∃ j, skipSpace ts i = .ok j ∧ i ≤ j ∧ j ≤ ts.length ∧
      (∀ p, runAt src ts p i = runAt src ts p j) ∧
      ∀ t, ts[j]? = some t → t.kind ≠ .whitespace := by
  induction hrest : ts.drop i generalizing i with
  | nil =>
    have hend := List.drop_eq_nil_iff.mp hrest
    refine ⟨i, ?_, Nat.le_refl i, hi, fun p => rfl, fun t ht => ?_⟩
    · rw [skipSpace, dif_neg (Nat.not_lt.mpr hend)]
    · rw [List.getElem?_eq_none hend] at ht
      cases ht
  | cons t rest ih =>
    rw [skipSpace_cons hrest]
    by_cases hspace : t.kind = .whitespace
    · rw [if_pos hspace]
      obtain ⟨j, hskip, hij, hj, hrun, hnext⟩ := ih (lt_of_drop hrest) (drop_succ hrest)
      refine ⟨j, hskip, by omega, hj, fun p => ?_, hnext⟩
      rw [← hrun, runAt, runAt, hrest, drop_succ hrest, runFrom_space p hspace, runFrom_blank]
      rw [Token.blank_cons, Token.isSpace_iff.mpr hspace]
      rfl
    · rw [if_neg hspace]
      refine ⟨i, rfl, Nat.le_refl i, hi, fun p => rfl, fun t' ht' => ?_⟩
      rw [getElem?_of_drop hrest, Option.some.injEq] at ht'
      rwa [← ht']

/-! ## Steps -/

/-- A step of the walk from the index `j` on passes a token. If it leaves a
    closing brace, this is the next token and a rule is around. At the `top` it
    gives rules only. -/
structure Passes (ts : List Token) (top : Bool) (j : Nat) (step : Step) : Prop where
  progress : j < step.next
  inside : step.next ≤ ts.length
  brace : step.brace = true →
    top = false ∧ ∃ mark, ts[step.next]? = some mark ∧ mark.kind = .closeBrace
  rule : top = true → ∀ n, step.node = some n → ∃ r : Rule, n = r.node

/-- A step of the walk does to the open rules `p` what the parser does, which
    then goes on from the index behind it. -/
structure Agrees (src : Source) (ts : List Token) (p : Progress) (j : Nat)
    (x : Except Stop Step) : Prop where
  run : lift (runAt src ts p j) =
    x >>= fun step => lift (runAt src ts (grow p step.node) step.next)
  passes : ∀ step, x = .ok step → Passes ts p.stack.isEmpty j step

/-- The rest of a block from the index `i` on, as a step of its own: what the walk
    reads becomes the last children of the rule, and the rule is closed. -/
structure AgreesInBlock (src : Source) (ts : List Token) (selector : Text) (offset i : Nat)
    (x : Except Stop (List Node × Nat)) : Prop where
  run : ∀ children stack rules,
    lift (runAt src ts ⟨⟨selector, offset, children⟩ :: stack, rules⟩ i) =
      x >>= fun found => lift (runAt src ts
        (Progress.place ⟨stack, rules⟩ ⟨selector, children ++ found.1, src.pos offset⟩) found.2)
  passes : ∀ found, x = .ok found → i < found.2 ∧ found.2 ≤ ts.length

/-- A reader does what the parser does with every block that begins behind the
    index `bound`. -/
def ReadsBlocks (src : Source) (ts : List Token) (bound : Nat) (block : BlockReader) : Prop :=
  ∀ selector offset i, bound < i → i ≤ ts.length →
    AgreesInBlock src ts selector offset i (block selector offset i)

section Steps

variable {ts body : List Token} {p : Progress} {j : Nat} {block : BlockReader}

theorem agrees_refused {report : Report} (h : runAt src ts p j = .error report) :
    Agrees src ts p j (.error (.refused report)) := by
  refine ⟨?_, fun _ hstep => by cases hstep⟩
  rw [h]
  rfl

theorem eq_none_of_inline_top {terminated : Bool} {node : Option Node}
    (h : inline src true terminated body = .ok node) : node = none := by
  rw [inline] at h
  cases htrim : Token.trim body with
  | nil =>
    rw [htrim] at h
    cases h
    rfl
  | cons t ts =>
    rw [htrim] at h
    cases h

/-- A statement that is no rule. -/
theorem agrees_inline {terminated brace : Bool} {next : Nat} (hplaced : Placed src body)
    (hprogress : j < next) (hinside : next ≤ ts.length)
    (hbrace : brace = true →
      p.stack.isEmpty = false ∧ ∃ mark, ts[next]? = some mark ∧ mark.kind = .closeBrace)
    (hrun : runAt src ts p j =
      addStatement src terminated p body >>= fun p' => runAt src ts p' next) :
    Agrees src ts p j
      (inline src p.stack.isEmpty terminated body >>= fun node => .ok ⟨node, next, brace⟩) := by
  constructor
  · rw [hrun, lift_bind, ← inline_grow hplaced]
    cases inline src p.stack.isEmpty terminated body <;> rfl
  · intro step hstep
    obtain ⟨node, hnode, hstep⟩ := bind_eq_ok_iff.mp hstep
    cases hstep
    refine ⟨hprogress, hinside, hbrace, fun htop n hn => ?_⟩
    rw [htop] at hnode
    rw [eq_none_of_inline_top hnode] at hn
    cases hn

/-- A rule, whose block is read from behind the opening brace on. -/
theorem agrees_rule {stop : Nat} {mark : Token} (hplaced : Placed src body) (hj : j ≤ stop)
    (hmark : ts[stop]? = some mark) (hblock : ReadsBlocks src ts j block)
    (hrun : runAt src ts p j = openRule p body mark >>= fun p' => runAt src ts p' (stop + 1)) :
    Agrees src ts p j (rule src ts block p.stack.isEmpty body (stop + 1)) := by
  have hstop : stop + 1 ≤ ts.length := (List.getElem?_eq_some_iff.mp hmark).1
  rw [openRule] at hrun
  rw [rule]
  cases htrim : Token.trim body with
  | nil =>
    rw [htrim] at hrun
    have hitem : itemBefore ts (stop + 1) = .ok mark := item_eq hmark
    dsimp only
    rw [if_pos List.isEmpty_nil, hitem, ok_bind]
    exact agrees_refused hrun
  | cons t rest =>
    rw [htrim] at hrun
    have hplace := hplaced t (Token.mem_of_mem_trim (by rw [htrim]; exact List.mem_cons_self))
    dsimp only at hrun ⊢
    rw [if_neg (by simp), item_zero, ok_bind, hplace, ok_bind]
    split at hrun
    · rename_i hparent
      rw [if_pos hparent]
      exact agrees_refused hrun
    · rename_i hparent
      rw [if_neg hparent]
      rw [ok_bind] at hrun
      have hagrees := hblock (Token.raw (t :: rest)) t.offset (stop + 1) (by omega) hstop
      constructor
      · rw [hrun, hagrees.run]
        cases block (Token.raw (t :: rest)) t.offset (stop + 1) with
        | error e => rfl
        | ok found =>
          have hgrow := grow_rule p ⟨Token.raw (t :: rest), found.1, src.pos t.offset⟩
          exact congrArg (fun p => lift (runAt src ts p found.2)) hgrow.symm
      · intro step hstep
        obtain ⟨found, hfound, hstep⟩ := bind_eq_ok_iff.mp hstep
        cases hstep
        obtain ⟨hnext, hinside⟩ := hagrees.passes found hfound
        have hprogress : j < found.2 := by omega
        refine ⟨hprogress, hinside, fun h => absurd h Bool.false_ne_true, fun _ n hn => ?_⟩
        cases hn
        exact ⟨⟨_, _, _⟩, rfl⟩

theorem slice_of_drop {rest : List Token} (hj : j ≤ ts.length) (h : ts.drop j = body ++ rest) :
    slice ts j (j + body.length) = .ok body := by
  have hlength := congrArg List.length h
  rw [List.length_drop, List.length_append] at hlength
  rw [slice_eq (Nat.le_add_right _ _) (by omega), List.drop_take, h, Nat.add_sub_cancel_left,
    List.take_left]

/-- The run from an index on begins with the segment that starts there. -/
theorem runAt_ended {after : List Token} {mark : Token} {depth next : Nat}
    (hafter : ts.drop next = after)
    (hcut : Segment.cutFrom [] 0 (ts.drop j) =
      .ended body depth mark :: Segment.cutFrom [] 0 after) :
    runAt src ts p j =
      take src p (.ended body depth mark) >>= fun p' => runAt src ts p' next := by
  unfold runAt runFrom
  rw [hcut, List.foldlM_cons, hafter]

/-- At a closing brace the parser closes the innermost rule. -/
theorem runAt_brace {frame : Frame} {stack : List Frame} {rules : List Rule} {mark : Token}
    (hj : ts[j]? = some mark) (hmark : mark.kind = .closeBrace) :
    runAt src ts ⟨frame :: stack, rules⟩ j =
      runAt src ts
        (Progress.place ⟨stack, rules⟩ ⟨frame.selector, frame.children, src.pos frame.offset⟩)
        (j + 1) := by
  obtain ⟨hlt, hget⟩ := List.getElem?_eq_some_iff.mp hj
  have hcut : Segment.cutFrom [] 0 (ts.drop j) =
      .ended [] 0 mark :: Segment.cutFrom [] 0 (ts.drop (j + 1)) := by
    rw [List.drop_eq_getElem_cons hlt, hget, Segment.cutFrom,
      if_pos (isMark_iff.mpr (.inr (.inr hmark)))]
    rfl
  rw [runAt_ended rfl hcut, take_closeBrace hmark, if_neg (by simp),
    addStatement_of_blank Token.blank_nil, ok_bind, closeRule_eq, ok_bind]

/-- In a rule the source must not end. -/
theorem runAt_end {frame : Frame} {stack : List Frame} {rules : List Rule}
    (hj : ts.length ≤ j) :
    runAt src ts ⟨frame :: stack, rules⟩ j =
      .error (frame.offset, .unterminatedBlock frame.selector) := by
  rw [runAt, List.drop_eq_nil_iff.mpr hj]
  unfold runFrom
  rw [Segment.cutFrom, List.foldlM_cons, take, if_neg (by simp)]
  unfold finish
  rw [addStatement_of_blank (by rw [List.reverse_nil]; exact Token.blank_nil)]
  rfl

/-- A statement in front of a mark at which nothing is open. -/
theorem agrees_mark {mark : Token} (hplaced : Placed src body)
    (hmark : ts[j + body.length]? = some mark) (hends : Segment.isMark mark = true)
    (hbody : p.stack.isEmpty = false → mark.kind = .closeBrace → body ≠ [])
    (hblock : ReadsBlocks src ts j block)
    (hrun : runAt src ts p j = take src p (.ended body 0 mark) >>= fun p' =>
      runAt src ts p' (j + body.length + 1)) :
    Agrees src ts p j
      (statementUpTo src ts block p.stack.isEmpty body (j + body.length)) := by
  have hstop : j + body.length < ts.length := (List.getElem?_eq_some_iff.mp hmark).1
  rw [statementUpTo, if_pos hstop, item_eq hmark, ok_bind]
  rcases isMark_iff.mp hends with hkind | hkind | hkind
  · -- The semicolon is passed.
    rw [take_semicolon hkind] at hrun
    rw [hkind]
    exact agrees_inline hplaced (by omega) hstop (fun h => absurd h Bool.false_ne_true) hrun
  · rw [take_openBrace hkind] at hrun
    rw [hkind]
    exact agrees_rule hplaced (Nat.le_add_right _ _) hmark hblock hrun
  · -- The brace is left, so progress comes from the tokens in front of it.
    rw [take_closeBrace hkind] at hrun
    rw [hkind]
    obtain ⟨stack, rules⟩ := p
    cases stack with
    | nil =>
      rw [if_pos List.isEmpty_nil] at hrun
      exact agrees_refused hrun
    | cons frame stack =>
      have hpos := List.length_pos_iff.mpr (hbody rfl hkind)
      refine agrees_inline hplaced (by omega) (Nat.le_of_lt hstop)
        (fun _ => ⟨rfl, mark, hmark, hkind⟩) ?_
      rw [hrun, if_neg (by simp), bind_assoc]
      -- The parser adds the statement and closes the rule in one go; the walk
      -- takes the brace in a round of its own.
      refine bind_congr_ok fun p' hp' => ?_
      obtain ⟨nodes, -, rfl⟩ := addStatement_eq_ok_iff.mp hp'
      rw [closeRule_eq, ok_bind, runAt_brace hmark hkind]

/-- A statement at the end of the source. -/
theorem agrees_end {t : Token} (hplaced : Placed src body) (ht : ts[j]? = some t)
    (hspace : t.kind ≠ .whitespace) (hrest : ts.drop j = body)
    (hrun : runAt src ts p j = take src p (.rest body 0)) :
    Agrees src ts p j
      (statementUpTo src ts block p.stack.isEmpty body (j + body.length)) := by
  obtain ⟨hj, hget⟩ := List.getElem?_eq_some_iff.mp ht
  have hend : j + body.length = ts.length := by
    rw [← hrest, List.length_drop]
    omega
  rw [statementUpTo, if_neg (by omega)]
  rw [take, if_neg (by simp)] at hrun
  obtain ⟨stack, rules⟩ := p
  cases stack with
  | nil =>
    obtain ⟨more, htrim⟩ : ∃ more, Token.trim body = t :: more := by
      rw [← hrest, List.drop_eq_getElem_cons hj, hget,
        Token.trim_cons (Token.isSpace_eq_false_iff.mpr hspace)]
      exact ⟨_, rfl⟩
    unfold finish at hrun
    rw [htrim] at hrun
    dsimp only at hrun
    rw [← htrim, Token.raw_trim] at hrun
    rw [if_pos List.isEmpty_nil, htrim, item_zero, ok_bind]
    exact agrees_refused hrun
  | cons frame stack =>
    -- The statement is read, and only then the rule is found to be open.
    rw [if_neg (by simp)]
    refine agrees_inline hplaced (by omega) (Nat.le_of_eq hend)
      (fun h => absurd h Bool.false_ne_true) ?_
    rw [hrun]
    unfold finish
    refine bind_congr_ok fun p' hp' => ?_
    obtain ⟨nodes, -, rfl⟩ := addStatement_eq_ok_iff.mp hp'
    rw [runAt_end (Nat.le_of_eq hend.symm)]
    rfl

/-- One statement of the walk, from a token on that is no white space and, in a
    rule, does not close it. -/
theorem statement_agrees {t : Token} (hplaced : Placed src ts) (ht : ts[j]? = some t)
    (hspace : t.kind ≠ .whitespace)
    (hbrace : p.stack.isEmpty = false → t.kind ≠ .closeBrace)
    (hblock : ReadsBlocks src ts j block) :
    Agrees src ts p j (statement src ts block p.stack.isEmpty j) := by
  obtain ⟨hj, hget⟩ := List.getElem?_eq_some_iff.mp ht
  rcases scan_cases (rfl : ts.drop j = _) 0 with
    ⟨stray, hscan, hcut⟩ | ⟨body, depth, hdepth, hscan, hfound⟩
  · have hrun : runAt src ts p j = .error (stray.offset, .unexpected stray.text) := by
      rw [runAt, runFrom, hcut]
      rfl
    rw [statement, hscan]
    exact agrees_refused hrun
  · obtain ⟨tail, htail⟩ : ∃ tail, ts.drop j = body ++ tail := by
      rcases hfound with ⟨mark, after, hrest, -⟩ | ⟨hrest, -⟩
      · exact ⟨_, hrest⟩
      · exact ⟨[], by rw [hrest, List.append_nil]⟩
    have hplaced : Placed src body := fun t' ht' =>
      hplaced t' (List.mem_of_mem_drop (by rw [htail]; exact List.mem_append_left _ ht'))
    rw [statement, hscan, ok_bind]
    dsimp only
    rw [slice_of_drop (Nat.le_of_lt hj) htail, ok_bind]
    by_cases hzero : depth = 0
    · subst hzero
      rw [if_neg (by simp)]
      rcases hfound with ⟨mark, after, hrest, hends, hcut⟩ | ⟨hrest, hcut⟩
      · have hstop : ts.drop (j + body.length) = mark :: after := by
          rw [← List.drop_drop, hrest, List.drop_left]
        refine agrees_mark hplaced (getElem?_of_drop hstop) hends (fun hrule hkind => ?_) hblock
          (runAt_ended (drop_succ hstop) (hcut []))
        -- The first token does not close the rule, so it is not this mark.
        rintro rfl
        have hfirst := getElem?_of_drop hrest
        rw [ht, Option.some.injEq] at hfirst
        exact hbrace hrule (by rw [hfirst, hkind])
      · refine agrees_end hplaced ht hspace hrest ?_
        rw [runAt, runFrom, hcut]
        exact bind_pure _
    · -- White space opens nothing.
      have hopen : ¬ Token.blank body := by
        intro hblank
        rw [level_of_blank hblank] at hdepth
        omega
      rw [if_pos hzero, unterminated_eq hopen]
      refine agrees_refused ?_
      rw [runAt, runFrom]
      rcases hfound with ⟨mark, after, -, -, hcut⟩ | ⟨-, hcut⟩
      · rw [hcut, List.foldlM_cons, take, if_pos hzero]
        rfl
      · rw [hcut, List.foldlM_cons, take, if_pos hzero]
        rfl

/-- At a closing brace no token would be passed. -/
example : statement src [⟨.closeBrace, [], 0⟩] block false 0 = .ok ⟨none, 0, true⟩ := by
  rw [statement, scan_cons rfl]
  rfl

end Steps

/-! ## Loops -/

section Loops

variable {ts : List Token}

/-- A brace that a statement leaves stands at the index, not behind white space. -/
theorem skipSpace_brace {i : Nat} {mark : Token} (hi : ts[i]? = some mark)
    (hmark : mark.kind = .closeBrace) : skipSpace ts i = .ok i := by
  obtain ⟨hlt, hget⟩ := List.getElem?_eq_some_iff.mp hi
  rw [skipSpace_cons (List.drop_eq_getElem_cons hlt), hget, if_neg (by rw [hmark]; decide)]

/-- The rounds of a block. Every round but the last passes a token, so there are
    more than enough of them. -/
theorem children_agrees (hplaced : Placed src ts) {fuel i : Nat} (selector : Text) (offset : Nat)
    {brace : Bool} (hi : i ≤ ts.length) (hfuel : ts.length - i < fuel)
    (hbrace : brace = true → ∃ mark, ts[i]? = some mark ∧ mark.kind = .closeBrace) :
    AgreesInBlock src ts selector offset i (children src ts fuel selector offset brace i) := by
  induction fuel generalizing selector offset i brace with
  | zero => exact absurd hfuel (Nat.not_lt_zero _)
  | succ fuel ih =>
    obtain ⟨j, hskip, hij, hj, hrunj, hnext⟩ := skipSpace_eq src hi
    -- A brace that was left is found again at once.
    have hleft : brace = true → j = i ∧ ∃ mark, ts[j]? = some mark ∧ mark.kind = .closeBrace := by
      intro hleft
      obtain ⟨mark, hmark, hkind⟩ := hbrace hleft
      rw [skipSpace_brace hmark hkind] at hskip
      cases hskip
      exact ⟨rfl, mark, hmark, hkind⟩
    rw [children, hskip, ok_bind]
    by_cases hlt : j < ts.length
    · have ht := List.getElem?_eq_getElem hlt
      rw [if_pos hlt, item_eq ht, ok_bind]
      by_cases hkind : ts[j].kind = .closeBrace
      · have hat : ¬ (brace = true ∧ i ≠ j) := fun h => h.2 (hleft h.1).1.symm
        rw [if_pos hkind, if_neg hat]
        refine ⟨fun children stack rules => ?_, fun found hfound => ?_⟩
        · have hclosed : lift (runAt src ts (Progress.place ⟨stack, rules⟩
              ⟨selector, children ++ [], src.pos offset⟩) (j + 1)) =
              lift (runAt src ts ⟨⟨selector, offset, children⟩ :: stack, rules⟩ j) := by
            rw [runAt_brace ht hkind, List.append_nil]
          rw [hrunj, ← hclosed]
          rfl
        · cases hfound
          exact ⟨Nat.lt_succ_of_le hij, hlt⟩
      · have hnone : ¬ brace = true := by
          intro h
          obtain ⟨-, mark, hmark, hbrace⟩ := hleft h
          rw [ht, Option.some.injEq] at hmark
          exact hkind (by rw [hmark, hbrace])
        rw [if_neg hkind, if_neg hnone]
        -- A block inside begins behind `j`, where the rounds that are left suffice.
        have hblock : ReadsBlocks src ts j fun selector offset i =>
            children src ts fuel selector offset false i := fun selector offset k hk hend =>
          ih selector offset hend (by omega) fun h => absurd h Bool.false_ne_true
        have hstep (kids : List Node) (stack : List Frame) (rules : List Rule) :=
          statement_agrees (p := ⟨⟨selector, offset, kids⟩ :: stack, rules⟩) hplaced ht
            (hnext _ ht) (fun _ => hkind) hblock
        -- Behind the statement the loop goes on as it would from there.
        have hrest {step : Step} (hpasses : Passes ts false j step) :=
          ih (i := step.next) selector offset hpasses.inside
            (by have hprogress := hpasses.progress; omega)
            fun hbrace => (hpasses.brace hbrace).2
        refine ⟨fun kids stack rules => ?_, fun found hfound => ?_⟩
        · rw [hrunj, (hstep kids stack rules).run, bind_assoc]
          refine bind_congr_ok fun step hok => ?_
          have hpasses := (hstep kids stack rules).passes step hok
          rw [if_neg (Nat.not_le.mpr hpasses.progress), grow_frame, bind_assoc]
          refine ((hrest hpasses).run _ _ _).trans (bind_congr_ok fun found _ => ?_)
          rw [List.append_assoc]
          rfl
        · obtain ⟨step, hok, hfound⟩ := bind_eq_ok_iff.mp hfound
          have hpasses := (hstep [] [] []).passes step hok
          rw [if_neg (Nat.not_le.mpr hpasses.progress)] at hfound
          obtain ⟨more, hmore, hfound⟩ := bind_eq_ok_iff.mp hfound
          cases hfound
          obtain ⟨hbehind, hinside⟩ := (hrest hpasses).passes more hmore
          have hprogress := hpasses.progress
          exact ⟨by omega, hinside⟩
    · have hnone : ¬ brace = true := by
        intro h
        obtain ⟨-, mark, hmark, -⟩ := hleft h
        exact hlt (List.getElem?_eq_some_iff.mp hmark).1
      rw [if_neg hlt, if_neg hnone]
      refine ⟨fun children stack rules => ?_, fun found hfound => by cases hfound⟩
      rw [hrunj, runAt_end (Nat.not_lt.mp hlt)]
      rfl

/-- The rounds at the top. -/
theorem document_eq (hplaced : Placed src ts) {fuel i : Nat} (hi : i ≤ ts.length)
    (hfuel : ts.length - i < fuel) (rules : List Rule) :
    lift (runAt src ts ⟨[], rules⟩ i) =
      document src ts fuel i >>= fun more => .ok ⟨[], rules ++ more⟩ := by
  induction fuel generalizing i rules with
  | zero => exact absurd hfuel (Nat.not_lt_zero _)
  | succ fuel ih =>
    obtain ⟨j, hskip, hij, hj, hrunj, hnext⟩ := skipSpace_eq src hi
    rw [document, hskip, ok_bind, hrunj]
    by_cases hlt : j < ts.length
    · have ht := List.getElem?_eq_getElem hlt
      have hblock : ReadsBlocks src ts j fun selector offset i =>
          children src ts fuel selector offset false i := fun selector offset k hk hend =>
        children_agrees hplaced selector offset hend (by omega)
          fun h => absurd h Bool.false_ne_true
      have hstep := statement_agrees (p := ⟨[], rules⟩) hplaced ht (hnext _ ht)
        (fun h => absurd h.symm Bool.false_ne_true) hblock
      rw [if_pos hlt, hstep.run, bind_assoc]
      refine bind_congr_ok fun step hok => ?_
      have hpasses := hstep.passes step hok
      have hprogress := hpasses.progress
      -- At the top a closing brace is refused, never left.
      have hnone : ¬ step.brace = true := fun h => Bool.noConfusion (hpasses.brace h).1
      have hrest := ih hpasses.inside (by omega)
      rw [if_neg (Nat.not_le.mpr hprogress), if_neg hnone]
      cases hnode : step.node with
      | none => exact hrest rules
      | some n =>
        obtain ⟨r, rfl⟩ := hpasses.rule rfl n hnode
        refine (hrest (rules ++ [r])).trans ?_
        rw [Rule.node]
        dsimp only
        rw [bind_assoc]
        refine bind_congr_ok fun more _ => ?_
        rw [List.append_assoc]
        rfl
    · have hend : runAt src ts ⟨[], rules⟩ j = .ok ⟨[], rules ++ []⟩ := by
        rw [runAt, List.drop_eq_nil_iff.mpr (Nat.not_lt.mp hlt), List.append_nil]
        rfl
      rw [if_neg hlt, hend]
      rfl

end Loops

/-- The tokens of a source stand in it. -/
theorem placed_of_tokens {source : Text} {ts : List Token} (h : tokens source = .ok ts) :
    Placed (Source.ofText source) ts := by
  obtain ⟨-, rfl⟩ := tokens_eq_ok_iff.mp h
  intro t ht
  obtain ⟨before, rest, hsource, hoffset, -, -⟩ :=
    Lexer.exists_seam_of_mem_lex (List.mem_of_mem_filter ht)
  refine place_eq ?_
  rw [hsource, hoffset, List.length_append, Nat.zero_add]
  exact Nat.le_add_right _ _

/-- The walk answers as the parser does. -/
theorem read_eq_lift (source : Text) : read source = lift (Grammar.read source) := by
  rw [read, Grammar.read, lift_bind]
  refine bind_congr_ok fun ts hts => ?_
  have htokens : tokens source = .ok ts := by
    cases htokens : tokens source with
    | ok found =>
      rw [htokens] at hts
      cases hts
      rfl
    | error report =>
      rw [htokens] at hts
      cases hts
  have hrun := document_eq (placed_of_tokens htokens) (Nat.zero_le _)
    (Nat.lt_succ_of_le (Nat.sub_le _ 0)) []
  have hsheet : lift (sheet (Source.ofText source) ts) =
      lift (runAt (Source.ofText source) ts ⟨[], []⟩ 0) >>= fun p => .ok p.rules :=
    lift_bind _ _
  rw [hsheet, hrun, bind_assoc]
  exact (bind_pure _).symm

end MixinCss.Grammar.Walk

namespace MixinCss

open Grammar (Walk.read)

/-- For every source the parser gives what the walk over the tokens gives, and the
    walk ends with a sheet or a fault of the source. So it never looks outside of
    the tokens, the lines and the text, no loop goes on without end, every
    statement that it reads passes a token, and a closing brace that a statement
    leaves is taken next by the rule around it. -/
theorem parse_walks_in_range (source : Text) :
    (∀ sheet, parse source = .ok sheet ↔ Walk.read source = .ok sheet) ∧
    (∀ e, parse source = .error e ↔ ∃ offset fault,
      Walk.read source = .error (.refused (offset, fault)) ∧ e = .locate source offset fault) ∧
    ∀ stop, Walk.read source = .error stop → ∃ report, stop = .refused report := by
  rw [Grammar.Walk.read_eq_lift, parse]
  cases Grammar.read source with
  | ok sheet =>
    refine ⟨fun found => ⟨fun h => ?_, fun h => ?_⟩, fun e => ⟨fun h => ?_, ?_⟩, fun stop h => ?_⟩
    · cases h
      rfl
    · cases h
      rfl
    · cases h
    · rintro ⟨_, _, h, -⟩
      cases h
    · cases h
  | error report =>
    obtain ⟨offset, fault⟩ := report
    refine ⟨fun sheet => ⟨fun h => ?_, fun h => ?_⟩, fun e => ⟨fun h => ?_, ?_⟩, fun stop h => ?_⟩
    · cases h
    · cases h
    · cases h
      exact ⟨offset, fault, rfl, rfl⟩
    · rintro ⟨_, _, h, rfl⟩
      cases h
      rfl
    · cases h
      exact ⟨_, rfl⟩

/-- Blocks in one another, one without a semicolon at its end, and bytes that are
    no text with something left open in front of a closing brace. -/
theorem parse_walks_in_range_samples :
    let accepted := utf8 ".a \x7b ; &:hover \x7b b: c \x7d d(1, [2] x) ; e: f \x7d ;"
    let refused : Text := [0xFF, ascii '\x7b', ascii ' ', 0xC3, ascii '(', ascii '\x7d']
    (∃ sheet, parse accepted = .ok sheet ∧ Walk.read accepted = .ok sheet) ∧
      (∀ sheet, parse refused ≠ .ok sheet) ∧
      ∃ report, Walk.read refused = .error (.refused report) := by
  intro accepted refused
  have haccepted : (parse accepted).toOption.isSome = true := by decide +kernel
  have hrefused : (parse refused).toOption = none := by decide +kernel
  obtain ⟨sheet, hsheet⟩ := Option.isSome_iff_exists.mp haccepted
  rw [toOption_eq_some_iff] at hsheet
  refine ⟨⟨sheet, hsheet, ((parse_walks_in_range accepted).1 sheet).mp hsheet⟩, ?_, ?_⟩
  · intro sheet hsheet
    rw [hsheet] at hrefused
    cases hrefused
  · cases hparse : parse refused with
    | ok sheet =>
      rw [hparse] at hrefused
      cases hrefused
    | error e =>
      obtain ⟨offset, fault, hwalk, -⟩ := ((parse_walks_in_range refused).2.1 e).mp hparse
      exact ⟨_, hwalk⟩

end MixinCss
