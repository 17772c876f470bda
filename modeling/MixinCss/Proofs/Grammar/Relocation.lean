/-
  MixinCss.Proofs.Grammar.Relocation

  What tokens spell does not depend on where they stand. Tokens that are moved
  to other places, in the same or in another source, spell the same sheet up to
  the places in it (`Document.relocate`).
-/

import MixinCss.Proofs.Grammar.Derivation
import MixinCss.Proofs.Sheet.Placement
import MixinCss.Proofs.Token.Lexemes

namespace MixinCss

/-! ## Moved tokens -/

namespace Token

/-- `us` are the tokens `ts`, perhaps at other places. -/
def Moved (us ts : List Token) : Prop := us.map bare = ts.map bare

theorem kind_eq_of_bare {t u : Token} (h : u.bare = t.bare) : u.kind = t.kind := by
  show u.bare.kind = t.bare.kind
  rw [h]

theorem text_eq_of_bare {t u : Token} (h : u.bare = t.bare) : u.text = t.text := by
  show u.bare.text = t.bare.text
  rw [h]

theorem Moved.of_append {us front back : List Token} (h : Moved us (front ++ back)) :
    ∃ front' back', us = front' ++ back' ∧ Moved front' front ∧ Moved back' back := by
  unfold Moved at h
  rw [List.map_append] at h
  exact List.map_eq_append_iff.1 h

theorem Moved.of_cons {us ts : List Token} {t : Token} (h : Moved us (t :: ts)) :
    ∃ t' ts', us = t' :: ts' ∧ t'.bare = t.bare ∧ Moved ts' ts := List.map_eq_cons_iff.1 h

theorem Moved.of_nil {us : List Token} (h : Moved us []) : us = [] := List.map_eq_nil_iff.1 h

/-- What does not look at places is the same for moved tokens. -/
theorem Moved.congr {β : Type} {f : List Token → β} (hf : ∀ ts, f (ts.map bare) = f ts)
    {us ts : List Token} (h : Moved us ts) : f us = f ts := by
  rw [← hf us, h, hf]

theorem blank_bare (ts : List Token) : blank (ts.map bare) = blank ts := by
  unfold blank
  rw [List.all_map]
  rfl

theorem trim_bare (ts : List Token) : trim (ts.map bare) = (trim ts).map bare :=
  trim_map (f := bare) (fun _ => rfl) ts

theorem raw_bare (ts : List Token) : raw (ts.map bare) = raw ts := by
  unfold raw
  rw [trim_bare, List.flatMap_map]
  rfl

theorem Moved.trim {us ts : List Token} (h : Moved us ts) : Moved (trim us) (trim ts) := by
  unfold Moved
  rw [← trim_bare, h, trim_bare]

theorem Moved.filter {p : Token → Bool} (hp : ∀ t, p t.bare = p t) {us ts : List Token}
    (h : Moved us ts) : Moved (us.filter p) (ts.filter p) := by
  have hbare (vs : List Token) : (vs.filter p).map bare = (vs.map bare).filter p := by
    rw [List.filter_map]
    exact congrArg (List.map bare) (List.filter_congr fun t _ => (hp t).symm)
  unfold Moved
  rw [hbare, h, hbare]

/-- What holds of tokens whatever their places holds of them when they are moved. -/
theorem Moved.forall_mem {p : Token → Prop} (hp : ∀ t u, u.bare = t.bare → p t → p u)
    {us ts : List Token} (h : Moved us ts) (hts : ∀ t ∈ ts, p t) : ∀ u ∈ us, p u := by
  intro u hu
  have hbare : u.bare ∈ ts.map bare := h ▸ List.mem_map_of_mem hu
  obtain ⟨t, ht, htu⟩ := List.mem_map.1 hbare
  exact hp t u htu.symm (hts t ht)

end Token

namespace Grammar

open Token (Moved bare)

/-! ## Values -/

theorem level_bare (ts : List Token) : level (ts.map bare) = level ts := by
  induction ts with
  | nil => rfl
  | cons t ts ih => rw [List.map_cons, level_cons, ih, level_cons]; rfl

theorem parenLevel_bare (ts : List Token) : parenLevel (ts.map bare) = parenLevel ts := by
  induction ts with
  | nil => rfl
  | cons t ts ih => rw [List.map_cons, parenLevel_cons, ih, parenLevel_cons]; rfl

theorem reference?_bare : ∀ ts : List Token, reference? (ts.map bare) = reference? ts
  | [] => rfl
  | [_] => rfl
  | [_, _] => rfl
  | _ :: _ :: _ :: _ => rfl

theorem splitFrom_bare (sep : TokenKind) (depth : Int) (ts : List Token) :
    splitFrom sep depth (ts.map bare) = (splitFrom sep depth ts).map (List.map bare) := by
  induction ts generalizing depth with
  | nil => rfl
  | cons t ts ih =>
    rw [List.map_cons, splitFrom, splitFrom]
    by_cases hsep : t.kind = sep ∧ depth = 0
    · rw [if_pos hsep, if_pos (show t.bare.kind = sep ∧ depth = 0 from hsep), ih]
      rfl
    · have hnesting : t.bare.nesting = t.nesting := rfl
      rw [if_neg hsep, if_neg (show ¬ (t.bare.kind = sep ∧ depth = 0) from hsep), hnesting, ih]
      cases splitFrom sep (depth + t.nesting) ts <;> rfl

theorem atom_bare (ts : List Token) : atom (ts.map bare) = atom ts := by
  unfold atom
  rw [reference?_bare, Token.raw_bare]
  cases reference? ts with
  | some v => rfl
  | none =>
    match ts with
    | [] | [_] | _ :: _ :: _ => rfl

theorem valueOfArgument_bare (ts : List Token) :
    valueOfArgument (ts.map bare) = valueOfArgument ts := by
  have hempty : (fun g : List Token => !g.isEmpty) ∘ List.map bare = fun g => !g.isEmpty := by
    funext g
    cases g <;> rfl
  have hatom : atom ∘ List.map bare = atom := funext atom_bare
  unfold valueOfArgument splitTop
  rw [splitFrom_bare, List.filter_map, hempty, List.map_map, hatom]

theorem valueOfDeclaration_bare (ts : List Token) :
    valueOfDeclaration (ts.map bare) = valueOfDeclaration ts := by
  unfold valueOfDeclaration
  rw [reference?_bare, Token.raw_bare]
  match ts with
  | [] | [_] | _ :: _ :: _ => rfl

/-! ## Segments -/

variable {us ts : List Token}

theorem level_of_kinds (h : us.map Token.kind = ts.map Token.kind) : level us = level ts := by
  have hsum (vs : List Token) :
      level vs = ((vs.map Token.kind).map fun kind => Token.nesting ⟨kind, [], 0⟩).sum := by
    induction vs with
    | nil => rfl
    | cons v vs ih => rw [level_cons, ih]; rfl
  rw [hsum, h, hsum]

/-- Whether tokens are a segment depends on their classes only. -/
theorem IsSegment.of_kinds (h : IsSegment ts) (hkinds : us.map Token.kind = ts.map Token.kind) :
    IsSegment us := by
  refine ⟨fun u hu => ?_, fun front hfront => ?_, ?_⟩
  · have hmem : u.kind ∈ ts.map Token.kind := hkinds ▸ List.mem_map_of_mem hu
    obtain ⟨t, ht, hkind⟩ := List.mem_map.1 hmem
    have hmark := h.unmarked t ht
    unfold Segment.isMark at hmark ⊢
    rwa [hkind] at hmark
  · obtain ⟨front', hfront', heq⟩ := List.prefix_map_iff.1 (hkinds ▸ hfront.map Token.kind)
    rw [level_of_kinds heq]
    exact h.neverBelow front' hfront'
  · rw [level_of_kinds hkinds, h.closed]

theorem IsSegment.relocate (h : IsSegment ts) (hmoved : Moved us ts) : IsSegment us := by
  refine h.of_kinds ?_
  have hkinds := congrArg (List.map Token.kind) hmoved
  rwa [List.map_map, List.map_map] at hkinds

theorem BeginsWith.relocate {first : Token} (h : BeginsWith ts first) (hmoved : Moved us ts) :
    ∃ first', BeginsWith us first' := by
  obtain ⟨lead, rest, hlead, hfirst, rfl⟩ := h
  obtain ⟨lead', more, rfl, hlead', hmore⟩ := hmoved.of_append
  obtain ⟨first', rest', rfl, hfirst', -⟩ := hmore.of_cons
  refine ⟨first', lead', rest', ?_, ?_, rfl⟩
  · rw [hlead'.congr Token.blank_bare]
    exact hlead
  · rw [Token.kind_eq_of_bare hfirst']
    exact hfirst

/-! ## Arguments -/

theorem NoTopComma.relocate (h : NoTopComma ts) (hmoved : Moved us ts) : NoTopComma us := by
  rintro front comma back rfl hcomma
  obtain ⟨front', more, rfl, hfront, hmore⟩ := Moved.of_append (hmoved.symm : Moved ts _)
  obtain ⟨comma', back', rfl, hcomma', -⟩ := hmore.of_cons
  rw [← hfront.congr level_bare]
  exact h front' comma' back' rfl ((Token.kind_eq_of_bare hcomma').trans hcomma)

theorem Groups.relocate {groups : List (List Token)} (h : Groups ts groups) (hmoved : Moved us ts) :
    ∃ groups', Groups us groups' ∧ List.Forall₂ Moved groups' groups := by
  induction h generalizing us with
  | last hgroup => exact ⟨[us], .last (hgroup.relocate hmoved), .cons hmoved .nil⟩
  | more hgroup hclosed hcomma _ ih =>
    obtain ⟨group', more, rfl, hgroup', hmore⟩ := hmoved.of_append
    obtain ⟨comma', rest', rfl, hcomma', hrest'⟩ := hmore.of_cons
    obtain ⟨groups', hgroups, hall⟩ := ih hrest'
    refine ⟨group' :: groups', .more (hgroup.relocate hgroup') ?_ ?_ hgroups, .cons hgroup' hall⟩
    · rw [hgroup'.congr level_bare, hclosed]
    · rw [Token.kind_eq_of_bare hcomma', hcomma]

theorem Keyed.relocate {key : Text} {value : List Token} (h : Keyed ts key value)
    (hmoved : Moved us ts) : ∃ value', Keyed us key value' ∧ Moved value' value := by
  obtain @⟨lead, gap, value, head, colon, hlead, hhead, hgap, hcolon⟩ := h
  obtain ⟨lead', more, rfl, hlead', hmore⟩ := hmoved.of_append
  obtain ⟨head', more, rfl, hhead', hmore⟩ := hmore.of_cons
  obtain ⟨gap', more, rfl, hgap', hmore⟩ := hmore.of_append
  obtain ⟨colon', value', rfl, hcolon', hvalue'⟩ := hmore.of_cons
  rw [← hlead'.congr Token.blank_bare] at hlead
  rw [← hgap'.congr Token.blank_bare] at hgap
  rw [← (Token.text_eq_of_bare hhead')]
  exact ⟨value', .intro hlead ((Token.kind_eq_of_bare hhead').trans hhead) hgap
    ((Token.kind_eq_of_bare hcolon').trans hcolon), hvalue'⟩

theorem KeywordOf.relocate {k : Keyword} (h : KeywordOf ts k) (hmoved : Moved us ts) :
    KeywordOf us k := by
  obtain ⟨value, hkeyed, hblank, hk⟩ := h
  obtain ⟨value', hkeyed', hvalue⟩ := hkeyed.relocate hmoved
  refine ⟨value', hkeyed', ?_, ?_⟩
  · rw [hvalue.congr Token.blank_bare]
    exact hblank
  · rw [hk, hvalue.trim.congr valueOfArgument_bare]

theorem PlainGroup.relocate (h : PlainGroup ts) (hmoved : Moved us ts) : PlainGroup us := by
  refine ⟨?_, fun key value hkeyed => ?_⟩
  · rw [hmoved.congr Token.blank_bare]
    exact h.1
  · obtain ⟨value', hkeyed', -⟩ := hkeyed.relocate (hmoved.symm : Moved ts us)
    exact h.2 key value' hkeyed'

theorem forall₂_relocate {groups groups' : List (List Token)} {pairs : List Keyword}
    (h : List.Forall₂ KeywordOf groups pairs) (hmoved : List.Forall₂ Moved groups' groups) :
    List.Forall₂ KeywordOf groups' pairs := by
  induction hmoved generalizing pairs with
  | nil => exact h
  | cons hgroup _ ih =>
    cases h with
    | cons hk hrest => exact .cons (hk.relocate hgroup) (ih hrest)

theorem plain_relocate {groups groups' : List (List Token)}
    (h : ∀ group ∈ groups, PlainGroup group) (hmoved : List.Forall₂ Moved groups' groups) :
    ∀ group ∈ groups', PlainGroup group := by
  induction hmoved with
  | nil => exact h
  | cons hgroup _ ih =>
    rw [List.forall_mem_cons] at h ⊢
    exact ⟨h.1.relocate hgroup, ih h.2⟩

theorem map_valueOfArgument_relocate {groups groups' : List (List Token)}
    (hmoved : List.Forall₂ Moved groups' groups) :
    (groups'.map fun group => valueOfArgument (Token.trim group)) =
      groups.map fun group => valueOfArgument (Token.trim group) := by
  induction hmoved with
  | nil => rfl
  | cons hgroup _ ih =>
    rw [List.map_cons, List.map_cons, ih, hgroup.trim.congr valueOfArgument_bare]

theorem Arguments.relocate {args : Args} (h : Arguments ts args) (hmoved : Moved us ts) :
    Arguments us args := by
  cases h with
  | none hblank => exact .none (by rw [hmoved.congr Token.blank_bare]; exact hblank)
  | keywords hgroups hpairs hkeys =>
    obtain ⟨groups', hgroups', hall⟩ := hgroups.relocate hmoved
    exact .keywords hgroups' (forall₂_relocate hpairs hall) hkeys
  | positional hgroups hplain =>
    obtain ⟨groups', hgroups', hall⟩ := hgroups.relocate hmoved
    rw [← map_valueOfArgument_relocate hall]
    exact .positional hgroups' (plain_relocate hplain hall)

/-! ## Statements -/

variable {src : Source}

theorem Declares.relocate {n : Node} (h : Declares src ts n) (hmoved : Moved us ts)
    (src' : Source) : ∃ n', Declares src' us n' ∧ n'.unplaced = n.unplaced := by
  obtain @⟨head, colon, gap, value, hhead, hgap, hcolon, hvalue⟩ := h
  obtain ⟨head', more, rfl, hhead', hmore⟩ := hmoved.of_cons
  obtain ⟨gap', more, rfl, hgap', hmore⟩ := hmore.of_append
  obtain ⟨colon', value', rfl, hcolon', hvalue'⟩ := hmore.of_cons
  rw [← Token.kind_eq_of_bare hhead'] at hhead
  rw [← hgap'.congr Token.blank_bare] at hgap
  rw [← hvalue'.congr Token.blank_bare] at hvalue
  refine ⟨_, .intro hhead hgap ((Token.kind_eq_of_bare hcolon').trans hcolon) hvalue, ?_⟩
  rw [Node.unplaced, Node.unplaced, Token.text_eq_of_bare hhead',
    hvalue'.trim.congr valueOfDeclaration_bare]

theorem Calls.relocate {n : Node} (h : Calls src ts n) (hmoved : Moved us ts)
    (src' : Source) : ∃ n', Calls src' us n' ∧ n'.unplaced = n.unplaced := by
  obtain @⟨head, closing, inside, after, args, hhead, hclosing, hclosed, hfirst, hafter, hargs⟩ := h
  obtain ⟨head', more, rfl, hhead', hmore⟩ := hmoved.of_cons
  obtain ⟨inside', more, rfl, hinside', hmore⟩ := hmore.of_append
  obtain ⟨closing', after', rfl, hclosing', hafter'⟩ := hmore.of_cons
  have hwhole {front front' : List Token} (hfront : Moved front' front) :
      Moved (head' :: front') (head :: front) := congrArg₂ List.cons hhead' hfront
  rw [← hafter'.congr Token.blank_bare] at hafter
  refine ⟨_, .intro ((Token.kind_eq_of_bare hhead').trans hhead)
    ((Token.kind_eq_of_bare hclosing').trans hclosing) ?_ ?_ hafter (hargs.relocate hinside'), ?_⟩
  · rw [← hclosed]
    refine Moved.congr parenLevel_bare (hwhole ?_)
    unfold Moved
    rw [List.map_append, List.map_append, hinside', List.map_singleton, List.map_singleton,
      hclosing']
  · -- A front of what is moved is a front that is moved.
    intro front' hfront'
    obtain ⟨front, hfront, heq⟩ := List.prefix_map_iff.1 (hinside' ▸ hfront'.map bare)
    rw [Moved.congr parenLevel_bare (hwhole heq)]
    exact hfirst front hfront
  · rw [Node.unplaced, Node.unplaced, Token.functionName, Token.functionName,
      Token.text_eq_of_bare hhead']

theorem statement_relocate {n : Node} (h : Declares src ts n ∨ Calls src ts n)
    (hmoved : Moved us ts) (src' : Source) :
    ∃ n', (Declares src' us n' ∨ Calls src' us n') ∧ n'.unplaced = n.unplaced := by
  rcases h with h | h
  · obtain ⟨n', hn', heq⟩ := h.relocate hmoved src'
    exact ⟨n', .inl hn', heq⟩
  · obtain ⟨n', hn', heq⟩ := h.relocate hmoved src'
    exact ⟨n', .inr hn', heq⟩

theorem Final.relocate {nodes : List Node} (h : Final src ts nodes) (hmoved : Moved us ts)
    (src' : Source) :
    ∃ nodes', Final src' us nodes' ∧ Node.unplacedAll nodes' = Node.unplacedAll nodes := by
  cases h with
  | nothing =>
    rw [hmoved.of_nil]
    exact ⟨[], .nothing, rfl⟩
  | declaration hsegment hn =>
    obtain ⟨n', hn', heq⟩ := hn.relocate hmoved src'
    exact ⟨[n'], .declaration (hsegment.relocate hmoved) hn', by
      rw [Node.unplacedAll, heq]; rfl⟩

/-! ## Rules and sheets -/

mutual

theorem Items.relocate {src : Source} (src' : Source) :
    ∀ {ts us : List Token} {nodes : List Node}, Items src ts nodes → Moved us ts →
      ∃ nodes', Items src' us nodes' ∧ Node.unplacedAll nodes' = Node.unplacedAll nodes
  | _, us, _, .done, hmoved => by
    rw [hmoved.of_nil]
    exact ⟨[], .done, rfl⟩
  | _, us, _, .space ht hrest, hmoved => by
    obtain ⟨t', ts', rfl, ht', hts'⟩ := hmoved.of_cons
    obtain ⟨nodes', hnodes', heq⟩ := hrest.relocate src' hts'
    exact ⟨nodes', .space ((Token.kind_eq_of_bare ht').trans ht) hnodes', heq⟩
  | _, us, _, .semicolon ht hrest, hmoved => by
    obtain ⟨t', ts', rfl, ht', hts'⟩ := hmoved.of_cons
    obtain ⟨nodes', hnodes', heq⟩ := hrest.relocate src' hts'
    exact ⟨nodes', .semicolon ((Token.kind_eq_of_bare ht').trans ht) hnodes', heq⟩
  | _, us, _, .rule hrule hrest, hmoved => by
    obtain ⟨front', ts', rfl, hfront', hts'⟩ := hmoved.of_append
    obtain ⟨r', hrule', hr⟩ := hrule.relocate src' hfront'
    obtain ⟨nodes', hnodes', heq⟩ := hrest.relocate src' hts'
    refine ⟨r'.node :: nodes', .rule hrule' hnodes', ?_⟩
    rw [Node.unplacedAll, ← Rule.unplaced_node, hr, heq, Rule.unplaced_node, Node.unplacedAll]
  | _, us, _, .statement hsegment hn hmark hrest, hmoved => by
    obtain ⟨segment', more, rfl, hsegment', hmore⟩ := hmoved.of_append
    obtain ⟨mark', ts', rfl, hmark', hts'⟩ := hmore.of_cons
    obtain ⟨nodes', hnodes', heq⟩ := hrest.relocate src' hts'
    obtain ⟨n', hn', hplace⟩ := statement_relocate hn hsegment' src'
    refine ⟨n' :: nodes', .statement (hsegment.relocate hsegment') hn'
      ((Token.kind_eq_of_bare hmark').trans hmark) hnodes', ?_⟩
    rw [Node.unplacedAll, hplace, heq, Node.unplacedAll]

theorem Block.relocate {src : Source} (src' : Source) :
    ∀ {ts us : List Token} {r : Rule}, Block src ts r → Moved us ts →
      ∃ r', Block src' us r' ∧ r'.unplaced = r.unplaced
  | _, us, _, .intro hsegment hfirst hopening hbody hlast hclosing, hmoved => by
    obtain ⟨selector', more, rfl, hselector', hmore⟩ := hmoved.of_append
    obtain ⟨opening', more, rfl, hopening', hmore⟩ := hmore.of_cons
    obtain ⟨body', more, rfl, hbody', hmore⟩ := hmore.of_append
    obtain ⟨last', more, rfl, hlast', hmore⟩ := hmore.of_append
    obtain ⟨closing', more, rfl, hclosing', hmore⟩ := hmore.of_cons
    obtain rfl := hmore.of_nil
    obtain ⟨first', hfirst'⟩ := hfirst.relocate hselector'
    obtain ⟨nodes', hnodes', heq⟩ := hbody.relocate src' hbody'
    obtain ⟨final', hfinal', hfinal⟩ := hlast.relocate hlast' src'
    refine ⟨_, .intro (hsegment.relocate hselector') hfirst'
      ((Token.kind_eq_of_bare hopening').trans hopening) hnodes' hfinal'
      ((Token.kind_eq_of_bare hclosing').trans hclosing), ?_⟩
    rw [Rule.unplaced, Rule.unplaced, Node.unplacedAll_append, Node.unplacedAll_append, heq, hfinal,
      hselector'.congr Token.raw_bare]

end

/-- Moved tokens spell the same sheet up to places. -/
theorem Document.relocate {sheet : Sheet} (h : Document src ts sheet) (hmoved : Moved us ts)
    (src' : Source) :
    ∃ sheet', Document src' us sheet' ∧ Sheet.unplaced sheet' = Sheet.unplaced sheet := by
  induction h generalizing us with
  | done =>
    rw [hmoved.of_nil]
    exact ⟨[], .done, rfl⟩
  | space ht _ ih =>
    obtain ⟨t', ts', rfl, ht', hts'⟩ := hmoved.of_cons
    obtain ⟨sheet', hsheet', heq⟩ := ih hts'
    exact ⟨sheet', .space ((Token.kind_eq_of_bare ht').trans ht) hsheet', heq⟩
  | semicolon ht _ ih =>
    obtain ⟨t', ts', rfl, ht', hts'⟩ := hmoved.of_cons
    obtain ⟨sheet', hsheet', heq⟩ := ih hts'
    exact ⟨sheet', .semicolon ((Token.kind_eq_of_bare ht').trans ht) hsheet', heq⟩
  | rule hrule hparent _ ih =>
    obtain ⟨front', ts', rfl, hfront', hts'⟩ := hmoved.of_append
    obtain ⟨r', hrule', hr⟩ := hrule.relocate src' hfront'
    obtain ⟨sheet', hsheet', heq⟩ := ih hts'
    refine ⟨r' :: sheet', .rule hrule' ?_ hsheet', ?_⟩
    · rw [← Rule.unplaced_selector, hr]
      exact hparent
    · rw [Sheet.unplaced_cons, Sheet.unplaced_cons, hr, heq]

end Grammar

end MixinCss
