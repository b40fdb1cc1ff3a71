import Xv6.ShellParser
import Mathlib.Data.List.DropRight
import Mathlib.Data.List.GetD

/-! The tokens of a command line, and what `gettoken` and `peek` do in terms of them. -/
namespace Xv6.Shell
open Function
variable {s l : List UInt8} {i q : Nat} {c : UInt8} {p : UInt8 → Bool}

inductive Token where
  | word (w : List UInt8)
  | lt | gt | append
  | bar | amp | semi | lpar | rpar
deriving DecidableEq, Repr

def Token.code : Token → UInt8
  | .word _ => 97
  | .lt => 60
  | .gt => 62
  | .append => 43
  | .bar => 124
  | .amp => 38
  | .semi => 59
  | .lpar => 40
  | .rpar => 41

def Token.lead : Token → Option UInt8
  | .word _ => none
  | .append => some 62
  | t => some t.code

def symbol (c : UInt8) : Option Token :=
  [Token.lt, .bar, .amp, .semi, .lpar, .rpar].find? fun t => t.code == c

/-- The token at the start of a text, and the rest. Words are as long as possible, and `>>` is
one token. -/
def lex : List UInt8 → Option (Token × List UInt8)
  | [] => none
  | c :: cs =>
    if c=62 then
      match cs with
      | 62 :: ds => some (.append, ds)
      | _ => some (.gt, cs)
    else match symbol c with
      | some t => some (t, cs)
      | none => some (.word (c :: cs.takeWhile isWord), cs.dropWhile isWord)

theorem lex_length {r : Token × List UInt8} (h : lex l=some r) : r.2.length < l.length := by
  cases l with
  | nil => cases h
  | cons c cs =>
    simp only [lex] at h
    split at h
    · split at h
      · cases h
        simp only [List.length_cons]
        omega
      · cases h
        exact Nat.lt_succ_self _
    · split at h
      · cases h
        exact Nat.lt_succ_self _
      · cases h
        exact Nat.lt_succ_of_le (List.dropWhile_sublist _).length_le

/-- **The tokens of a text.** -/
def tokens (l : List UInt8) : List Token :=
  match _h : lex (l.dropWhile isSpace) with
  | none => []
  | some r => r.1 :: tokens r.2
termination_by l.length
decreasing_by exact Nat.lt_of_lt_of_le (lex_length _h) (List.dropWhile_sublist _).length_le

theorem tokens_of_lex_none (h : lex (l.dropWhile isSpace)=none) : tokens l=[] := by
  rw [tokens]
  split
  · rfl
  · next r hr => cases h.symm.trans hr

theorem tokens_of_lex_some {r : Token × List UInt8} (h : lex (l.dropWhile isSpace)=some r) :
    tokens l=r.1 :: tokens r.2 := by
  rw [tokens]
  split
  · next hr => cases h.symm.trans hr
  · next r' hr =>
    obtain rfl : r=r' := Option.some.inj (h.symm.trans hr)
    rfl

theorem tokens_dropWhile (l : List UInt8) : tokens (l.dropWhile isSpace)=tokens l := by
  have hidem : (l.dropWhile isSpace).dropWhile isSpace=l.dropWhile isSpace := List.dropWhile_idempotent _ _
  cases h : lex (l.dropWhile isSpace) with
  | none => rw [tokens_of_lex_none h,tokens_of_lex_none (by rw [hidem,h])]
  | some r => rw [tokens_of_lex_some h,tokens_of_lex_some (by rw [hidem,h])]

theorem tokens_length_le (l : List UInt8) : (tokens l).length ≤ l.length := by
  induction hn : l.length using Nat.strong_induction_on generalizing l with
  | _ n ih =>
    cases h : lex (l.dropWhile isSpace) with
    | none =>
      rw [tokens_of_lex_none h]
      exact Nat.zero_le _
    | some r =>
      have hlt := Nat.lt_of_lt_of_le (lex_length h) (List.dropWhile_sublist isSpace).length_le
      have hrest := ih r.2.length (hn ▸ hlt) r.2 rfl
      rw [tokens_of_lex_some h,List.length_cons]
      omega

theorem drop_length_takeWhile (p : UInt8 → Bool) (l : List UInt8) :
    l.drop (l.takeWhile p).length=l.dropWhile p := by
  have h : (l.takeWhile p++l.dropWhile p).drop (l.takeWhile p).length=l.dropWhile p := List.drop_left
  rwa [List.takeWhile_append_dropWhile] at h

theorem drop_skip (p : UInt8 → Bool) (s : List UInt8) (i : Nat) :
    s.drop (skip p s i)=(s.drop i).dropWhile p := by
  rw [skip,← List.drop_drop,drop_length_takeWhile]

theorem skip_le (p : UInt8 → Bool) (h : i ≤ s.length) : skip p s i ≤ s.length := by
  have hle := (List.takeWhile_sublist p (l := s.drop i)).length_le
  rw [List.length_drop] at hle
  rw [skip]
  omega

theorem char_eq (h : i ≤ s.length) : char s i=.ok ((s.drop i).headD 0) := by
  rw [char,if_pos h]
  simp [List.getD_eq_getElem?_getD,List.headD_eq_head?_getD]

def Span.text (s : List UInt8) (w : Span) : List UInt8 := (s.drop w.1).take (w.2-w.1)

structure Good (s : List UInt8) (w : Span) : Prop where
  le : w.1 ≤ w.2
  inside : w.2 ≤ s.length
  word : ∀ k, w.1 ≤ k → k < w.2 → isWord (s.getD k 0)=true
  stop : w.2=s.length ∨ isWord (s.getD w.2 0)=false

theorem symbol_spec {t : Token} (h : symbol c=some t) :
    t.code=c ∧ t.lead=some c ∧ [124, 40, 41, 59, 38, 60].contains c=true ∧ c≠0 ∧
      ∀ w, t≠.word w := by
  have hcode : t.code=c := by simpa using List.find?_some h
  have hall : ∀ t∈[Token.lt, .bar, .amp, .semi, .lpar, .rpar], t.lead=some t.code ∧
      [124, 40, 41, 59, 38, 60].contains t.code=true ∧ t.code≠0 := by decide
  have hmem := List.mem_of_find?_eq_some h
  rw [← hcode]
  refine ⟨rfl,(hall t hmem).1,(hall t hmem).2.1,(hall t hmem).2.2,fun w hw => ?_⟩
  rw [hw] at hmem
  simp at hmem

theorem symbol_none (h : symbol c=none) (hne : c≠62) :
    [124, 40, 41, 59, 38, 60].contains c=false ∧ isSymbol c=false := by
  simp [symbol,Token.code] at h
  obtain ⟨h1,h2,h3,h4,h5,h6⟩ := h
  constructor
  · simp [Ne.symm h1,Ne.symm h2,Ne.symm h3,Ne.symm h4,Ne.symm h5,Ne.symm h6]
  · simp [isSymbol,hne,Ne.symm h1,Ne.symm h2,Ne.symm h3,Ne.symm h4,Ne.symm h5,Ne.symm h6]

theorem head_dropWhile {a : UInt8} {as : List UInt8} (h : l.dropWhile p=a::as) : p a=false := by
  have hne : l.dropWhile p≠[] := by simp [h]
  have hhead := List.head_dropWhile_not p hne
  simpa [h] using hhead

theorem getD_of_drop (s : List UInt8) (i k : Nat) : (s.drop i).getD k 0=s.getD (i+k) 0 := by
  simp [List.getD_eq_getElem?_getD]

theorem text_skip (q : Nat) : Span.text s (q, skip isWord s q)=(s.drop q).takeWhile isWord := by
  have h : (s.drop q).take ((s.drop q).takeWhile isWord).length=(s.drop q).takeWhile isWord :=
    List.prefix_iff_eq_take.mp (List.takeWhile_prefix isWord) |>.symm
  simp only [Span.text,skip,Nat.add_sub_cancel_left,h]

theorem good_word (hq : q ≤ s.length) : Good s (q, skip isWord s q) where
  le := Nat.le_add_right _ _
  inside := skip_le isWord hq
  word k hk hk' := by
    have hlt : k-q<((s.drop q).takeWhile isWord).length := by
      simp only [skip] at hk'
      omega
    have hmem := List.getElem_mem hlt
    have hword := List.mem_takeWhile_imp hmem
    have hget : ((s.drop q).takeWhile isWord)[k-q]=(s.drop q).getD (k-q) 0 := by
      rw [(List.takeWhile_prefix isWord).getElem hlt,List.getD_eq_getElem]
    rw [hget,getD_of_drop,Nat.add_sub_cancel' hk] at hword
    exact hword
  stop := by
    cases hrest : (s.drop q).dropWhile isWord with
    | nil =>
      left
      rw [← drop_skip,List.drop_eq_nil_iff] at hrest
      exact Nat.le_antisymm (skip_le isWord hq) hrest
    | cons a as =>
      right
      have ha := head_dropWhile hrest
      rw [← drop_skip] at hrest
      have hget := getD_of_drop s (skip isWord s q) 0
      rw [hrest,List.getD_cons_zero,Nat.add_zero] at hget
      rw [← hget]
      exact ha

theorem scan_spec (hs : 0∉s) (hq : q ≤ s.length) (hspace : isSpace ((s.drop q).headD 0)=false)
    {r : Token × List UInt8} (h : lex (s.drop q)=some r) :
    ∃ e, scan s q=.ok (r.1.code, e) ∧ e ≤ s.length ∧ s.drop e=r.2 ∧
      ∀ w, r.1=.word w → Span.text s (q, e)=w ∧ Good s (q, e) := by
  cases hdrop : s.drop q with
  | nil =>
    rw [hdrop] at h
    cases h
  | cons c cs =>
    have hmem : c∈s := List.mem_of_mem_drop (by rw [hdrop]; simp)
    have h0 : c≠0 := fun he => hs (he ▸ hmem)
    have hlt : q < s.length := by
      by_contra hge
      rw [List.drop_eq_nil_iff.mpr (Nat.not_lt.mp hge)] at hdrop
      cases hdrop
    have hnext : s.drop (q+1)=cs := by rw [← List.drop_drop,hdrop]; rfl
    rw [hdrop] at h hspace
    simp only [lex] at h
    have hchar : char s q=.ok c := by rw [char_eq hq,hdrop]; rfl
    by_cases hgt : c=62
    · subst hgt
      rw [if_pos rfl] at h
      have hscan : scan s q = if cs.headD 0=62 then .ok (43, q+2) else .ok (62, q+1) := by
        simp only [scan,hchar,bind,Except.bind,char_eq hlt,hnext]
        rfl
      split at h
      · next ds =>
        cases h
        have hlen : q+2 ≤ s.length := by
          have hl := congrArg List.length hdrop
          simp only [List.length_drop,List.length_cons] at hl
          omega
        refine ⟨q+2,hscan,hlen,?_,fun w hw => by cases hw⟩
        rw [← List.drop_drop,hdrop]
        rfl
      · next hno =>
        cases h
        have hne : ¬cs.headD 0=62 := by
          intro he
          cases cs with
          | nil => exact absurd he (by decide)
          | cons d ds => exact hno ds (by rw [show d=62 from he])
        rw [if_neg hne] at hscan
        exact ⟨q+1,hscan,hlt,hnext,fun w hw => by cases hw⟩
    · rw [if_neg hgt] at h
      split at h
      · next t ht =>
        cases h
        obtain ⟨hcode,-,hin,-,hnot⟩ := symbol_spec ht
        have hscan : scan s q=.ok (c, q+1) := by
          simp only [scan,hchar,bind,Except.bind,if_neg h0,if_pos hin]
        exact ⟨q+1,by rw [hscan,hcode],hlt,hnext,fun w hw => absurd hw (hnot w)⟩
      · next ht =>
        cases h
        obtain ⟨hout,hsym⟩ := symbol_none ht hgt
        have hword : isWord c=true := by
          simp only [List.headD_cons] at hspace
          simp [isWord,hspace,hsym]
        have hscan : scan s q=.ok (97, skip isWord s q) := by
          simp only [scan,hchar,bind,Except.bind,if_neg h0,hout,if_neg hgt,Bool.false_eq_true,if_false]
        refine ⟨skip isWord s q,hscan,skip_le isWord hq,?_,fun w hw => ⟨?_,good_word hq⟩⟩
        · rw [drop_skip,hdrop,List.dropWhile_cons_of_pos hword]
        · cases hw
          rw [text_skip,hdrop,List.takeWhile_cons_of_pos hword]

section Cursor
variable {ts : List Token} {t : Token} {toks : List UInt8}

structure At (s : List UInt8) (i : Nat) (ts : List Token) : Prop where
  le : i ≤ s.length
  rest : tokens (s.drop i)=ts

def leads (toks : List UInt8) : List Token → Bool
  | [] => false
  | t :: _ => t.lead.any toks.contains

theorem At.length_le (h : At s i ts) : ts.length ≤ s.length := by
  have hle := tokens_length_le (s.drop i)
  rw [h.rest,List.length_drop] at hle
  omega

theorem At.skip (h : At s i ts) : At s (skip isSpace s i) ts where
  le := skip_le isSpace h.le
  rest := by rw [drop_skip,tokens_dropWhile,h.rest]

theorem space_skip (s : List UInt8) (i : Nat) :
    isSpace ((s.drop (Shell.skip isSpace s i)).headD 0)=false := by
  rw [drop_skip]
  cases h : (s.drop i).dropWhile isSpace with
  | nil => decide
  | cons a as => exact head_dropWhile h

theorem lex_eq_none (h : lex l=none) : l=[] := by
  cases l with
  | nil => rfl
  | cons c cs =>
    simp only [lex] at h
    split at h
    · split at h <;> cases h
    · split at h <;> cases h

theorem At.skip_nil (h : At s i []) : Shell.skip isSpace s i=s.length := by
  cases hlex : lex ((s.drop i).dropWhile isSpace) with
  | none =>
    have hnil := lex_eq_none hlex
    rw [← drop_skip,List.drop_eq_nil_iff] at hnil
    exact Nat.le_antisymm (skip_le isSpace h.le) hnil
  | some r =>
    have hrest := h.rest
    rw [tokens_of_lex_some hlex] at hrest
    cases hrest

theorem At.lex_cons (h : At s i (t::ts)) :
    ∃ r, lex (s.drop (Shell.skip isSpace s i))=some (t, r) ∧ tokens r=ts := by
  have hrest := h.rest
  rw [drop_skip]
  cases hlex : lex ((s.drop i).dropWhile isSpace) with
  | none =>
    rw [tokens_of_lex_none hlex] at hrest
    cases hrest
  | some r =>
    rw [tokens_of_lex_some hlex,List.cons.injEq] at hrest
    obtain ⟨rfl,rfl⟩ := hrest
    exact ⟨r.2,rfl,rfl⟩

theorem char_length (s : List UInt8) : char s s.length=.ok 0 := by
  rw [char_eq (Nat.le_refl _)]
  simp

theorem gettoken_nil (h : At s i []) : ∃ w j, gettoken s i=.ok (0, w, j) ∧ At s j [] := by
  have hend := h.skip_nil
  have hscan : scan s s.length=.ok (0, s.length) := by
    simp only [scan,char_length,bind,Except.bind,if_true]
  have hat : At s s.length [] := by
    have hskip := h.skip
    rwa [hend] at hskip
  exact ⟨(s.length, s.length),_,by simp only [gettoken,hend,hscan,bind,Except.bind],hat.skip⟩

theorem gettoken_cons (hs : 0∉s) (h : At s i (t::ts)) :
    ∃ w j, gettoken s i=.ok (t.code, w, j) ∧ At s j ts ∧
      ∀ x, t=.word x → Span.text s w=x ∧ Good s w := by
  obtain ⟨r,hlex,hr⟩ := h.lex_cons
  obtain ⟨e,hscan,hle,hdrop,hword⟩ := scan_spec hs h.skip.le (space_skip s i) hlex
  have hat : At s e ts := ⟨hle,by rw [hdrop,hr]⟩
  exact ⟨_,_,by simp only [gettoken,hscan,bind,Except.bind],hat.skip,hword⟩

theorem lead_of_lex {r : Token × List UInt8} (h : lex (c::l)=some r) (hspace : isSpace c=false) :
    r.1.lead = if isSymbol c=true then some c else none := by
  simp only [lex] at h
  by_cases hgt : c=62
  · subst hgt
    rw [if_pos rfl] at h
    split at h
    · cases h
      rfl
    · cases h
      rfl
  · rw [if_neg hgt] at h
    split at h
    · next t ht =>
      cases h
      obtain ⟨-,hlead,hin,-⟩ := symbol_spec ht
      have hsym : isSymbol c=true := by
        simp only [List.contains_eq_mem,List.mem_cons,List.not_mem_nil,or_false,decide_eq_true_eq] at hin
        rcases hin with rfl | rfl | rfl | rfl | rfl | rfl <;> rfl
      rw [hlead,if_pos hsym]
    · next ht =>
      cases h
      rw [(symbol_none ht hgt).2]
      rfl

theorem peek_at (hs : 0∉s) (h : At s i ts) (toks : List UInt8) (htoks : toks.all isSymbol=true) :
    ∃ j, peek s i toks=.ok (leads toks ts, j) ∧ At s j ts ∧ (ts=[] → j=s.length) := by
  refine ⟨skip isSpace s i,?_,h.skip,fun he => (he ▸ h).skip_nil⟩
  cases ts with
  | nil =>
    simp only [peek,h.skip_nil,char_length,bind,Except.bind]
    rfl
  | cons t ts =>
    obtain ⟨r,hlex,hr⟩ := h.lex_cons
    cases hdrop : s.drop (skip isSpace s i) with
    | nil =>
      rw [hdrop] at hlex
      cases hlex
    | cons c cs =>
      have hspace := space_skip s i
      rw [hdrop] at hlex hspace
      have hlead := lead_of_lex hlex hspace
      have hmem : c∈s := List.mem_of_mem_drop (by rw [hdrop]; simp)
      have h0 : c≠0 := fun he => hs (he ▸ hmem)
      have hsame : toks.contains c=t.lead.any toks.contains := by
        rw [hlead]
        by_cases hsym : isSymbol c=true
        · rw [if_pos hsym,Option.any_some]
        · rw [if_neg hsym,Option.any_none,List.contains_eq_mem]
          exact decide_eq_false fun hin => hsym (List.all_eq_true.mp htoks c hin)
      have hchar : char s (skip isSpace s i)=.ok c := by
        rw [char_eq h.skip.le,hdrop]
        rfl
      simp only [peek,hchar,bind,Except.bind,hsame,leads,bne_iff_ne.mpr h0,Bool.true_and]

end Cursor

end Xv6.Shell
