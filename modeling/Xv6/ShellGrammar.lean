import Xv6.ShellTokens
import Xv6.Total
import Mathlib.Logic.Function.Iterate

/-! The grammar of the shell, and that the parser accepts just the command lines that it derives,
with the command that the derivation stands for. -/
namespace Xv6.Shell
open Function Xv6.Total
variable {s : List UInt8} {i k n argc : Nat} {ts us vs : List Token} {cmd : Cmd Span}

abbrev Word : Type := List UInt8

inductive RedirKind where
  | input | output | append
deriving DecidableEq, Repr

def RedirKind.token : RedirKind → Token
  | .input => .lt
  | .output => .gt
  | .append => .append

def RedirKind.mode : RedirKind → Nat
  | .input => oRdonly
  | .output => oWronly ||| oCreate ||| oTrunc
  | .append => oWronly ||| oCreate

def RedirKind.fd : RedirKind → Nat
  | .input => 0
  | .output => 1
  | .append => 1

/-- `redir ::= ('<' | '>' | '>>') word` -/
structure Redir where
  kind : RedirKind
  file : Word

def Redir.tokens (r : Redir) : List Token := [r.kind.token, .word r.file]

def Redir.wrap (c : Cmd Word) (r : Redir) : Cmd Word := .redir c r.file r.kind.mode r.kind.fd

/-- `word redir*` -/
structure Arg where
  word : Word
  redirs : List Redir

def Arg.tokens (a : Arg) : List Token := .word a.word :: a.redirs.flatMap Redir.tokens

inductive Nonterminal where
  | line | pipe | exec

/-- **The grammar**, with the command that each derivation stands for:
`line ::= pipe '&'* [';' line]`, `pipe ::= exec ['|' pipe]` and
`exec ::= '(' line ')' redir* | redir* (word redir*)*` with fewer than `MAXARGS` words.
Redirections are put around the command in the order in which they stand. -/
inductive Derives : Nonterminal → List Token → Cmd Word → Prop where
  | last {us : List Token} {c : Cmd Word} (n : Nat) :
    Derives .pipe us c → Derives .line (us++List.replicate n .amp) (Cmd.back^[n] c)
  | list {us vs : List Token} {c d : Cmd Word} (n : Nat) :
    Derives .pipe us c → Derives .line vs d →
    Derives .line (us++(List.replicate n .amp++.semi :: vs)) (.list (Cmd.back^[n] c) d)
  | single {us : List Token} {c : Cmd Word} : Derives .exec us c → Derives .pipe us c
  | pipe {us vs : List Token} {c d : Cmd Word} :
    Derives .exec us c → Derives .pipe vs d → Derives .pipe (us++.bar :: vs) (.pipe c d)
  | block {us : List Token} {c : Cmd Word} (rs : List Redir) :
    Derives .line us c →
    Derives .exec (.lpar :: (us++.rpar :: rs.flatMap Redir.tokens)) (rs.foldl Redir.wrap c)
  | exec (rs : List Redir) (args : List Arg) :
    args.length < maxargs →
    Derives .exec (rs.flatMap Redir.tokens++args.flatMap Arg.tokens)
      ((rs++args.flatMap Arg.redirs).foldl Redir.wrap (.exec (args.map Arg.word)))

def Cmd.map {ω ω' : Type} (f : ω → ω') : Cmd ω → Cmd ω'
  | .exec argv => .exec (argv.map f)
  | .redir cmd file mode fd => .redir (cmd.map f) (f file) mode fd
  | .pipe left right => .pipe (left.map f) (right.map f)
  | .list left right => .list (left.map f) (right.map f)
  | .back cmd => .back (cmd.map f)

def Cmd.words {ω : Type} : Cmd ω → List ω
  | .exec argv => argv
  | .redir cmd file _ _ => cmd.words++[file]
  | .pipe left right => left.words++right.words
  | .list left right => left.words++right.words
  | .back cmd => cmd.words

structure Shows (s : List UInt8) (cmd : Cmd Span) (c : Cmd Word) : Prop where
  text : cmd.map (Span.text s)=c
  good : ∀ w∈cmd.words, Good s w

variable {c : Cmd Word} {x : Word}

theorem Shows.redir {w : Span} (h : Shows s cmd c) (hx : Span.text s w=x)
    (hw : Good s w) (kind : RedirKind) :
    Shows s (.redir cmd w kind.mode kind.fd) (Redir.wrap c ⟨kind,x⟩) where
  text := by rw [Cmd.map,h.text,hx]; rfl
  good v hv := by
    rcases List.mem_append.mp hv with hv | hv
    · exact h.good v hv
    · rw [List.mem_singleton.mp hv]
      exact hw

theorem Shows.back (h : Shows s cmd c) : Shows s (.back cmd) (.back c) where
  text := by rw [Cmd.map,h.text]
  good := h.good

theorem Shows.pipe {left right : Cmd Span} {d : Cmd Word} (h : Shows s left c) (h' : Shows s right d) :
    Shows s (.pipe left right) (.pipe c d) where
  text := by rw [Cmd.map,h.text,h'.text]
  good w hw := (List.mem_append.mp hw).elim (h.good w) (h'.good w)

theorem Shows.list {left right : Cmd Span} {d : Cmd Word} (h : Shows s left c) (h' : Shows s right d) :
    Shows s (.list left right) (.list c d) where
  text := by rw [Cmd.map,h.text,h'.text]
  good w hw := (List.mem_append.mp hw).elim (h.good w) (h'.good w)

theorem map_addArg {ω ω' : Type} (f : ω → ω') (w : ω) (c : Cmd ω) :
    (c.addArg w).map f=(c.map f).addArg (f w) := by
  induction c with
  | exec argv => simp [Cmd.addArg,Cmd.map]
  | redir cmd file mode fd ih => rw [Cmd.addArg,Cmd.map,ih,Cmd.map,Cmd.addArg]
  | pipe | list | back => rfl

theorem mem_words_addArg {ω : Type} {w v : ω} {c : Cmd ω} (h : v∈(c.addArg w).words) : v=w ∨ v∈c.words := by
  induction c with
  | exec argv =>
    rcases List.mem_append.mp h with h | h
    · exact .inr h
    · exact .inl (List.mem_singleton.mp h)
  | redir cmd file mode fd ih =>
    rcases List.mem_append.mp h with h | h
    · exact (ih h).imp id fun hv => List.mem_append_left _ hv
    · exact .inr (List.mem_append_right _ h)
  | pipe | list | back => exact .inr h

theorem addArg_foldl (x : Word) (rs : List Redir) (c : Cmd Word) :
    (rs.foldl Redir.wrap c).addArg x=rs.foldl Redir.wrap (c.addArg x) := by
  induction rs generalizing c with
  | nil => rfl
  | cons r rs ih => exact ih (Redir.wrap c r)

theorem Shows.addArg {w : Span} (h : Shows s cmd c) (hx : Span.text s w=x)
    (hw : Good s w) : Shows s (cmd.addArg w) (c.addArg x) where
  text := by rw [map_addArg,h.text,hx]
  good v hv := by
    rcases mem_words_addArg hv with rfl | hv
    · exact hw
    · exact h.good v hv

section Loops
variable {c : Cmd Word} {x : Word} {kind : RedirKind} {t : Token} {rs : List Redir} {ws : List Word}

def Proper (e : Panic) : Prop := e≠.wild ∧ e≠.fuel

theorem redir_of_leads (h : leads [60, 62] ts=true) : ∃ kind us, ts=RedirKind.token kind :: us := by
  cases ts with
  | nil => cases h
  | cons t us =>
    cases t with
    | lt => exact ⟨.input,us,rfl⟩
    | gt => exact ⟨.output,us,rfl⟩
    | append => exact ⟨.append,us,rfl⟩
    | word | bar | amp | semi | lpar | rpar => cases h

theorem leads_redir (kind : RedirKind) (us : List Token) : leads [60, 62] (kind.token::us)=true := by
  cases kind <;> rfl

theorem code_ne_word (h : ∀ x, t≠.word x) : t.code≠97 := by
  cases t with
  | word x => exact absurd rfl (h x)
  | lt | gt | append | bar | amp | semi | lpar | rpar => decide

def stops : List Token → Bool
  | [] => true
  | ts => leads [124, 41, 38, 59] ts

theorem stops_redir (h : stops vs=true) : leads [60, 62] vs=false := by
  cases vs with
  | nil => rfl
  | cons t vs =>
    cases t with
    | bar | amp | semi | rpar | word | lpar => rfl
    | lt | gt | append => cases h

theorem args_redir (args : List Arg) (h : stops vs=true) :
    leads [60, 62] (args.flatMap Arg.tokens++vs)=false := by
  cases args with
  | nil => exact stops_redir h
  | cons b args => rfl

/-- What `parseargs` works on: the words and redirections so far. -/
def execOf (rs : List Redir) (ws : List Word) : Cmd Word := rs.foldl Redir.wrap (.exec ws)

theorem Shows.nextArg {w : Span} (h : Shows s cmd (execOf rs ws))
    (hx : Span.text s w=x) (hw : Good s w) : Shows s (cmd.addArg w) (execOf rs (ws++[x])) := by
  have hadd := h.addArg hx hw
  rwa [execOf,addArg_foldl,Cmd.addArg] at hadd

theorem foldl_execOf (rs rs' : List Redir) (ws : List Word) :
    rs'.foldl Redir.wrap (execOf rs ws)=execOf (rs++rs') ws := by
  rw [execOf,execOf,List.foldl_append]

theorem exists_amps (ts : List Token) : ∃ n vs, ts=List.replicate n .amp++vs ∧ leads [38] vs=false := by
  induction ts with
  | nil => exact ⟨0,[],rfl,rfl⟩
  | cons t ts ih =>
    by_cases ht : t=.amp
    · obtain ⟨n,vs,rfl,hv⟩ := ih
      exact ⟨n+1,vs,by rw [ht]; rfl,hv⟩
    · refine ⟨0,t::ts,rfl,?_⟩
      cases t with
      | amp => exact absurd rfl ht
      | word | lt | gt | append | bar | semi | lpar | rpar => rfl

variable (hs : 0∉s)
include hs

theorem parseredirs_stop (cmd : Cmd Span) (k : Nat) (h : At s i ts) (hlead : leads [60, 62] ts=false) :
    ∃ j, parseredirs s cmd i (k+1)=.ok (cmd, j) ∧ At s j ts := by
  obtain ⟨j,hpeek,hj,-⟩ := peek_at hs h [60, 62] rfl
  refine ⟨j,?_,hj⟩
  simp [parseredirs,hpeek,hlead,bind,Except.bind]

theorem parseredirs_cons (cmd : Cmd Span) (k : Nat) (h : At s i (kind.token :: .word x :: ts)) :
    ∃ w j, parseredirs s cmd i (k+1)=parseredirs s (.redir cmd w kind.mode kind.fd) j k ∧ At s j ts ∧
      Span.text s w=x ∧ Good s w := by
  obtain ⟨j₁,hpeek,h₁,-⟩ := peek_at hs h [60, 62] rfl
  obtain ⟨w₁,j₂,htok,h₂,-⟩ := gettoken_cons hs h₁
  obtain ⟨w,j,hword,h₃,hw⟩ := gettoken_cons hs h₂
  refine ⟨w,j,?_,h₃,hw x rfl⟩
  rw [parseredirs]
  simp only [hpeek,leads_redir,bind,Except.bind,if_true,htok,hword]
  cases kind <;> rfl

theorem parseredirs_bad (cmd : Cmd Span) (k : Nat) (h : At s i (kind.token::ts))
    (hbad : ∀ x us, ts≠.word x :: us) : parseredirs s cmd i (k+1)=.error .missingFile := by
  obtain ⟨j₁,hpeek,h₁,-⟩ := peek_at hs h [60, 62] rfl
  obtain ⟨w₁,j₂,htok,h₂,-⟩ := gettoken_cons hs h₁
  have hnext : ∃ code w j, gettoken s j₂=.ok (code, w, j) ∧ code≠97 := by
    cases ts with
    | nil =>
      obtain ⟨w,j,hj,-⟩ := gettoken_nil h₂
      exact ⟨0,w,j,hj,by decide⟩
    | cons t us =>
      obtain ⟨w,j,hj,-⟩ := gettoken_cons hs h₂
      exact ⟨t.code,w,j,hj,code_ne_word fun x hx => hbad x us (by rw [hx])⟩
  obtain ⟨code,w,j,hj,hcode⟩ := hnext
  rw [parseredirs]
  simp only [hpeek,leads_redir,bind,Except.bind,if_true,htok,hj,if_pos hcode]

theorem parseredirs_ends (h : At s i ts) (hk : ts.length < k) (hc : Shows s cmd c) :
    Ends Proper (parseredirs s cmd i k) fun r => ∃ (rs : List Redir) (vs : List Token),
      ts=rs.flatMap Redir.tokens++vs ∧ leads [60, 62] vs=false ∧ At s r.2 vs ∧
        Shows s r.1 (rs.foldl Redir.wrap c) := by
  induction k generalizing i ts cmd c with
  | zero => exact absurd hk (Nat.not_lt_zero _)
  | succ k ih =>
    cases hlead : leads [60, 62] ts with
    | false =>
      obtain ⟨j,hj,hat⟩ := parseredirs_stop hs cmd k h hlead
      rw [hj]
      exact .ok ⟨[],ts,rfl,hlead,hat,hc⟩
    | true =>
      obtain ⟨kind,us,rfl⟩ := redir_of_leads hlead
      by_cases hword : ∃ x vs, us=.word x :: vs
      · obtain ⟨x,vs,rfl⟩ := hword
        obtain ⟨w,j,hj,hat,hx,hw⟩ := parseredirs_cons hs cmd k h
        rw [hj]
        simp only [List.length_cons] at hk
        refine (ih hat (by omega) (hc.redir hx hw kind)).weaken ?_
        rintro r ⟨rs,ws,rfl,hstop,hr,hshow⟩
        exact ⟨⟨kind,x⟩::rs,ws,rfl,hstop,hr,hshow⟩
      · rw [parseredirs_bad hs cmd k h fun x vs hx => hword ⟨x,vs,hx⟩]
        exact .error ⟨by decide,by decide⟩

theorem parseredirs_complete (rs : List Redir) (h : At s i (rs.flatMap Redir.tokens++vs))
    (hstop : leads [60, 62] vs=false) (hk : (rs.flatMap Redir.tokens++vs).length < k) (hc : Shows s cmd c) :
    Yields (parseredirs s cmd i k) fun r => At s r.2 vs ∧ Shows s r.1 (rs.foldl Redir.wrap c) := by
  induction rs generalizing i k cmd c with
  | nil =>
    obtain ⟨k,rfl⟩ := Nat.exists_eq_add_one.mpr (Nat.zero_lt_of_lt hk)
    obtain ⟨j,hj,hat⟩ := parseredirs_stop hs cmd k h hstop
    exact ⟨_,hj,hat,hc⟩
  | cons r rs ih =>
    obtain ⟨k,rfl⟩ := Nat.exists_eq_add_one.mpr (Nat.zero_lt_of_lt hk)
    have h' : At s i (r.kind.token :: .word r.file :: (rs.flatMap Redir.tokens++vs)) := h
    obtain ⟨w,j,hj,hat,hx,hw⟩ := parseredirs_cons hs cmd k h'
    rw [hj]
    have hlen : (rs.flatMap Redir.tokens++vs).length+2 < k+1 := hk
    exact ih hat (by omega) (hc.redir hx hw r.kind)

theorem parseargs_stop (ret : Cmd Span) (argc k : Nat) (h : At s i ts) (hstop : stops ts=true) :
    ∃ j, parseargs s ret argc i (k+1)=.ok (ret, j) ∧ At s j ts := by
  obtain ⟨j,hpeek,hj,-⟩ := peek_at hs h [124, 41, 38, 59] rfl
  cases ts with
  | nil =>
    obtain ⟨w,j',htok,hat⟩ := gettoken_nil hj
    refine ⟨j',?_,hat⟩
    simp [parseargs,hpeek,leads,htok,bind,Except.bind]
  | cons t us =>
    have hlead : leads [124, 41, 38, 59] (t::us)=true := hstop
    refine ⟨j,?_,hj⟩
    simp [parseargs,hpeek,hlead,bind,Except.bind]

theorem parseargs_word (ret : Cmd Span) (argc k : Nat) (h : At s i (.word x :: ts)) :
    ∃ w j, (parseargs s ret argc i (k+1) = if argc+1 ≥ maxargs then .error .tooManyArgs else
        parseredirs s (ret.addArg w) j (s.length+1) >>= fun r => parseargs s r.1 (argc+1) r.2 k) ∧
      At s j ts ∧ Span.text s w=x ∧ Good s w := by
  obtain ⟨j₁,hpeek,h₁,-⟩ := peek_at hs h [124, 41, 38, 59] rfl
  obtain ⟨w,j,htok,hat,hw⟩ := gettoken_cons hs h₁
  refine ⟨w,j,?_,hat,hw x rfl⟩
  have hcode : Token.code (.word x)=97 := rfl
  have hlead : leads [124, 41, 38, 59] (.word x :: ts)=false := rfl
  have hne : (97 : UInt8)≠0 := by decide
  rw [parseargs,hpeek]
  simp only [hlead,bind,Except.bind,Bool.false_eq_true,if_false,htok,hcode,hne,ne_eq,
    not_true_eq_false]

theorem parseargs_bad (ret : Cmd Span) (argc k : Nat) (h : At s i (t::ts))
    (hstop : stops (t::ts)=false) (hword : ∀ x, t≠.word x) :
    parseargs s ret argc i (k+1)=.error .notWord := by
  obtain ⟨j₁,hpeek,h₁,-⟩ := peek_at hs h [124, 41, 38, 59] rfl
  obtain ⟨w,j,htok,-⟩ := gettoken_cons hs h₁
  have hlead : leads [124, 41, 38, 59] (t::ts)=false := hstop
  have hcode := code_ne_word hword
  have hzero : t.code≠0 := by
    cases t with
    | word x => exact absurd rfl (hword x)
    | lt | gt | append | bar | amp | semi | lpar | rpar => decide
  simp [parseargs,hpeek,hlead,bind,Except.bind,htok,hcode,hzero]

theorem parseargs_ends (h : At s i ts) (hk : ts.length < k)
    (hargc : argc < maxargs) (hc : Shows s cmd (execOf rs ws)) :
    Ends Proper (parseargs s cmd argc i k) fun r => ∃ (args : List Arg) (vs : List Token),
      ts=args.flatMap Arg.tokens++vs ∧ argc+args.length < maxargs ∧ At s r.2 vs ∧
        Shows s r.1 (execOf (rs++args.flatMap Arg.redirs) (ws++args.map Arg.word)) := by
  induction k generalizing i ts cmd rs ws argc with
  | zero => exact absurd hk (Nat.not_lt_zero _)
  | succ k ih =>
    by_cases hstop : stops ts=true
    · obtain ⟨j,hj,hat⟩ := parseargs_stop hs cmd argc k h hstop
      rw [hj]
      exact .ok ⟨[],ts,rfl,hargc,hat,by simpa using hc⟩
    cases ts with
    | nil => exact absurd rfl hstop
    | cons t us =>
      by_cases hword : ∃ x, t=.word x
      case neg =>
        rw [parseargs_bad hs cmd argc k h (Bool.eq_false_iff.mpr hstop) fun x hx => hword ⟨x,hx⟩]
        exact .error ⟨by decide,by decide⟩
      obtain ⟨x,rfl⟩ := hword
      obtain ⟨w,j,hj,hat,hx,hw⟩ := parseargs_word hs cmd argc k h
      rw [hj]
      by_cases hmax : argc+1 ≥ maxargs
      · rw [if_pos hmax]
        exact .error ⟨by decide,by decide⟩
      rw [if_neg hmax]
      have hlen := hat.length_le
      rw [List.length_cons] at hk
      refine (parseredirs_ends hs hat (by omega) (hc.nextArg hx hw)).bind ?_
      rintro r ⟨rs',vs,rfl,-,hr,hshow⟩
      rw [foldl_execOf] at hshow
      rw [List.length_append] at hk
      refine (ih hr (by omega) (by omega) hshow).weaken ?_
      rintro r' ⟨args,zs,rfl,hlt,hr',hshow'⟩
      refine ⟨⟨x,rs'⟩::args,zs,by simp [Arg.tokens],by rw [List.length_cons]; omega,hr',?_⟩
      simpa using hshow'

theorem parseargs_complete (args : List Arg)
    (h : At s i (args.flatMap Arg.tokens++vs)) (hstop : stops vs=true)
    (hk : (args.flatMap Arg.tokens++vs).length < k) (hargc : argc+args.length < maxargs)
    (hc : Shows s cmd (execOf rs ws)) : Yields (parseargs s cmd argc i k) fun r => At s r.2 vs ∧
      Shows s r.1 (execOf (rs++args.flatMap Arg.redirs) (ws++args.map Arg.word)) := by
  induction args generalizing i k cmd rs ws argc with
  | nil =>
    obtain ⟨k,rfl⟩ := Nat.exists_eq_add_one.mpr (Nat.zero_lt_of_lt hk)
    obtain ⟨j,hj,hat⟩ := parseargs_stop hs cmd argc k h hstop
    exact ⟨_,hj,hat,by simpa using hc⟩
  | cons a args ih =>
    obtain ⟨k,rfl⟩ := Nat.exists_eq_add_one.mpr (Nat.zero_lt_of_lt hk)
    have htokens : (a::args).flatMap Arg.tokens++vs =
        .word a.word :: (a.redirs.flatMap Redir.tokens++(args.flatMap Arg.tokens++vs)) := by
      simp [Arg.tokens]
    rw [htokens] at h hk
    obtain ⟨w,j,hj,hat,hx,hw⟩ := parseargs_word hs cmd argc k h
    have hnext := args_redir args hstop
    have hlen := hat.length_le
    rw [List.length_cons] at hargc
    rw [List.length_cons,List.length_append] at hk
    rw [hj,if_neg (by omega)]
    refine (parseredirs_complete hs a.redirs hat hnext (by omega) (hc.nextArg hx hw)).bind ?_
    rintro r ⟨hr,hshow⟩
    rw [foldl_execOf] at hshow
    refine (ih hr (by omega) (by omega) hshow).weaken ?_
    rintro r' ⟨hr',hshow'⟩
    exact ⟨hr',by simpa using hshow'⟩

theorem parsebacks_eq (n : Nat) (h : At s i (List.replicate n .amp++vs))
    (hstop : leads [38] vs=false) (hk : (List.replicate n Token.amp++vs).length < k) (hc : Shows s cmd c) :
    Yields (parsebacks s cmd i k) fun r => At s r.2 vs ∧ Shows s r.1 (Cmd.back^[n] c) := by
  induction n generalizing i k cmd c with
  | zero =>
    obtain ⟨k,rfl⟩ := Nat.exists_eq_add_one.mpr (Nat.zero_lt_of_lt hk)
    obtain ⟨j,hpeek,hj,-⟩ := peek_at hs h [38] rfl
    refine ⟨(cmd, j),?_,hj,hc⟩
    simp [parsebacks,hpeek,hstop,bind,Except.bind]
  | succ n ih =>
    obtain ⟨k,rfl⟩ := Nat.exists_eq_add_one.mpr (Nat.zero_lt_of_lt hk)
    have h' : At s i (.amp :: (List.replicate n .amp++vs)) := h
    obtain ⟨j₁,hpeek,h₁,-⟩ := peek_at hs h' [38] rfl
    obtain ⟨w,j,htok,hat,-⟩ := gettoken_cons hs h₁
    have hlead : leads [38] (.amp :: (List.replicate n .amp++vs))=true := rfl
    have hlen : (List.replicate n Token.amp++vs).length+1 < k+1 := hk
    rw [parsebacks,hpeek]
    simp only [hlead,bind,Except.bind,if_true,htok]
    exact ih hat (by omega) hc.back

end Loops

def Parsed (s : List UInt8) (a : Nonterminal) (ts : List Token) (r : Cmd Span × Nat) : Prop :=
  ∃ us vs c, ts=us++vs ∧ Derives a us c ∧ At s r.2 vs ∧ Shows s r.1 c

theorem cons_of_leads {t : Token} (ht : t=.bar ∨ t=.semi ∨ t=.lpar ∨ t=.rpar)
    (h : leads [t.code] ts=true) : ∃ us, ts=t::us := by
  cases ts with
  | nil => cases h
  | cons t' us =>
    refine ⟨us,?_⟩
    rcases ht with rfl | rfl | rfl | rfl <;> cases t' <;> first | rfl | cases h

section Steps
variable (hs : 0∉s)
include hs

theorem parseline_step (hpipe : Ends Proper (parsepipe s n i) (Parsed s .pipe ts))
    (hline : ∀ j us, At s j us → us.length < ts.length → Ends Proper (parseline s n j) (Parsed s .line us)) :
    Ends Proper (parseline s (n+1) i) (Parsed s .line ts) := by
  rw [parseline]
  refine hpipe.bind ?_
  rintro ⟨cmd,j⟩ ⟨us,vs,c,rfl,hd,hat,hshow⟩
  obtain ⟨m,ws,rfl,hstop⟩ := exists_amps vs
  have hlen := hat.length_le
  obtain ⟨⟨cmd₁,j₁⟩,hbacks,hat₁,hshow₁⟩ := parsebacks_eq (k := s.length+1) hs m hat hstop (by omega) hshow
  obtain ⟨j₂,hpeek,hat₂,-⟩ := peek_at hs hat₁ [59] rfl
  simp only [hbacks,hpeek,bind,Except.bind]
  cases hsemi : leads [59] ws with
  | false =>
    refine .ok ⟨us++List.replicate m .amp,ws,_,by rw [List.append_assoc],.last m hd,hat₂,hshow₁⟩
  | true =>
    obtain ⟨zs,rfl⟩ := cons_of_leads (t := .semi) (by simp) hsemi
    obtain ⟨w,j₃,htok,hat₃,-⟩ := gettoken_cons hs hat₂
    simp only [if_true,htok]
    refine (hline j₃ zs hat₃ (by simp; omega)).bind ?_
    rintro ⟨right,j₄⟩ ⟨us',vs',d,rfl,hd',hat',hshow'⟩
    exact .ok ⟨_,vs',_,by simp,.list m hd hd',hat',hshow₁.list hshow'⟩

theorem parsepipe_step (hexec : Ends Proper (parseexec s n i) (Parsed s .exec ts))
    (hpipe : ∀ j us, At s j us → us.length < ts.length → Ends Proper (parsepipe s n j) (Parsed s .pipe us)) :
    Ends Proper (parsepipe s (n+1) i) (Parsed s .pipe ts) := by
  rw [parsepipe]
  refine hexec.bind ?_
  rintro ⟨cmd,j⟩ ⟨us,vs,c,rfl,hd,hat,hshow⟩
  obtain ⟨j₁,hpeek,hat₁,-⟩ := peek_at hs hat [124] rfl
  simp only [hpeek,bind,Except.bind]
  cases hbar : leads [124] vs with
  | false => exact .ok ⟨us,vs,c,rfl,.single hd,hat₁,hshow⟩
  | true =>
    obtain ⟨zs,rfl⟩ := cons_of_leads (t := .bar) (by simp) hbar
    obtain ⟨w,j₂,htok,hat₂,-⟩ := gettoken_cons hs hat₁
    simp only [if_true,htok]
    refine (hpipe j₂ zs hat₂ (by simp; omega)).bind ?_
    rintro ⟨right,j₃⟩ ⟨us',vs',d,rfl,hd',hat',hshow'⟩
    exact .ok ⟨_,vs',_,by simp,.pipe hd hd',hat',hshow.pipe hshow'⟩

theorem parseblock_step (hat : At s i (.lpar :: ts))
    (hline : ∀ j us, At s j us → us.length ≤ ts.length → Ends Proper (parseline s n j) (Parsed s .line us)) :
    Ends Proper (parseblock s (n+1) i) (Parsed s .exec (.lpar :: ts)) := by
  obtain ⟨j₁,hpeek,hat₁,-⟩ := peek_at hs hat [40] rfl
  obtain ⟨w,j₂,htok,hat₂,-⟩ := gettoken_cons hs hat₁
  have hlead : leads [40] (.lpar :: ts)=true := rfl
  rw [parseblock,hpeek]
  simp only [hlead,bind,Except.bind,Bool.not_true,Bool.false_eq_true,if_false,htok]
  refine (hline j₂ ts hat₂ (Nat.le_refl _)).bind ?_
  rintro ⟨cmd,j₃⟩ ⟨us,vs,c,rfl,hd,hat₃,hshow⟩
  obtain ⟨j₄,hpeek₄,hat₄,-⟩ := peek_at hs hat₃ [41] rfl
  simp only [hpeek₄]
  cases hclose : leads [41] vs with
  | false => exact .error ⟨by decide,by decide⟩
  | true =>
    obtain ⟨zs,rfl⟩ := cons_of_leads (t := .rpar) (by simp) hclose
    obtain ⟨w',j₅,htok₅,hat₅,-⟩ := gettoken_cons hs hat₄
    have hlen := hat₅.length_le
    simp only [htok₅,Bool.not_true,Bool.false_eq_true,if_false]
    refine (parseredirs_ends hs hat₅ (by omega) hshow).weaken ?_
    rintro r ⟨rs,vs',rfl,-,hr,hshow'⟩
    exact ⟨_,vs',_,by simp,.block rs hd,hr,hshow'⟩

theorem parseexec_step (hat : At s i ts)
    (hblock : ∀ j us, ts=.lpar :: us → At s j ts → Ends Proper (parseblock s n j) (Parsed s .exec ts)) :
    Ends Proper (parseexec s (n+1) i) (Parsed s .exec ts) := by
  obtain ⟨j₁,hpeek,hat₁,-⟩ := peek_at hs hat [40] rfl
  rw [parseexec,hpeek]
  cases hopen : leads [40] ts with
  | true =>
    obtain ⟨us,hus⟩ := cons_of_leads (t := .lpar) (by simp) hopen
    exact hblock j₁ us hus hat₁
  | false =>
    have hlen := hat.length_le
    have hnil : Shows s (.exec []) (execOf [] []) := ⟨rfl,by simp [Cmd.words]⟩
    refine (parseredirs_ends hs hat₁ (by omega) hnil).bind ?_
    rintro r ⟨rs,vs,rfl,-,hr,hshow⟩
    have hlen' := hr.length_le
    refine (parseargs_ends hs hr (by omega) (by decide) hshow).weaken ?_
    rintro r' ⟨args,zs,rfl,hlt,hr',hshow'⟩
    refine ⟨_,zs,_,(List.append_assoc _ _ _).symm,.exec rs args (by omega),hr',?_⟩
    simpa [execOf] using hshow'

/-- **What the parser accepts derives from the grammar**, and it always comes to an end. -/
theorem parse_ends (n : Nat) : ∀ i ts, At s i ts →
    (4*ts.length+4 ≤ n → Ends Proper (parseline s n i) (Parsed s .line ts)) ∧
    (4*ts.length+3 ≤ n → Ends Proper (parsepipe s n i) (Parsed s .pipe ts)) ∧
    (4*ts.length+2 ≤ n → Ends Proper (parseexec s n i) (Parsed s .exec ts)) ∧
    (∀ us, ts=.lpar :: us → 4*ts.length+1 ≤ n → Ends Proper (parseblock s n i) (Parsed s .exec ts)) := by
  induction n with
  | zero => exact fun i ts _ => ⟨fun h => by omega,fun h => by omega,fun h => by omega,fun _ _ h => by omega⟩
  | succ n ih =>
    intro i ts hat
    refine ⟨fun hn => ?_,fun hn => ?_,fun hn => ?_,fun us hus hn => ?_⟩
    · exact parseline_step hs ((ih i ts hat).2.1 (by omega))
        fun j us hus hlt => (ih j us hus).1 (by omega)
    · exact parsepipe_step hs ((ih i ts hat).2.2.1 (by omega))
        fun j us hus hlt => (ih j us hus).2.1 (by omega)
    · exact parseexec_step hs hat fun j us hus hj => (ih j ts hj).2.2.2 us hus (by omega)
    · subst hus
      rw [List.length_cons] at hn
      exact parseblock_step hs hat fun j us hus hle => (ih j us hus).1 (by omega)

end Steps

section Completeness
variable {a : Nonterminal} {c : Cmd Word}

def parse (s : List UInt8) : Nonterminal → Nat → Nat → Except Panic (Cmd Span × Nat)
  | .line => parseline s
  | .pipe => parsepipe s
  | .exec => parseexec s

/-- The calls of the parser that are open when it is at the first token. -/
def Nonterminal.depth : Nonterminal → Nat
  | .line => 4
  | .pipe => 3
  | .exec => 2

def follows : Nonterminal → List Token → Bool
  | .exec, vs => stops vs
  | .pipe, vs => stops vs && !leads [124] vs
  | .line, vs => stops vs && !leads [124, 38, 59] vs

theorem follows_line (h : follows .line vs=true) : vs=[] ∨ ∃ us, vs=.rpar :: us := by
  cases vs with
  | nil => exact .inl rfl
  | cons t us =>
    cases t with
    | rpar => exact .inr ⟨us,rfl⟩
    | word | lt | gt | append | bar | amp | semi | lpar => cases h

theorem follows_pipe (h : follows .pipe vs=true) : stops vs=true ∧ leads [124] vs=false := by
  simpa [follows] using h

theorem follows_amps (h : follows .line vs=true) (m : Nat) :
    follows .pipe (List.replicate m .amp++vs)=true ∧ leads [38] vs=false ∧ leads [59] vs=false := by
  rcases follows_line h with rfl | ⟨us,rfl⟩
  · refine ⟨?_,rfl,rfl⟩
    cases m <;> rfl
  · refine ⟨?_,rfl,rfl⟩
    cases m <;> rfl

variable (hs : 0∉s)
include hs

theorem parseexec_plain (rs : List Redir) (args : List Arg) (hlt : args.length < maxargs)
    (hat : At s i (rs.flatMap Redir.tokens++(args.flatMap Arg.tokens++vs))) (hstop : stops vs=true) :
    Yields (parseexec s (n+1) i) fun r => At s r.2 vs ∧
      Shows s r.1 (execOf (rs++args.flatMap Arg.redirs) (args.map Arg.word)) := by
  obtain ⟨j,hpeek,hat₁,-⟩ := peek_at hs hat [40] rfl
  have hopen : leads [40] (rs.flatMap Redir.tokens++(args.flatMap Arg.tokens++vs))=false := by
    cases rs with
    | cons r rs =>
      obtain ⟨kind,file⟩ := r
      cases kind <;> rfl
    | nil =>
      cases args with
      | cons b args => rfl
      | nil =>
        cases vs with
        | nil => rfl
        | cons t us =>
          cases t with
          | lpar => cases hstop
          | word | lt | gt | append | bar | amp | semi | rpar => rfl
  have hnext := args_redir args hstop
  have hlen := hat.length_le
  have hnil : Shows s (.exec []) (execOf [] []) := ⟨rfl,by simp [Cmd.words]⟩
  rw [parseexec,hpeek]
  simp only [hopen,bind,Except.bind,Bool.false_eq_true,if_false]
  refine (parseredirs_complete hs rs hat₁ hnext (by omega) hnil).bind ?_
  rintro r ⟨hr,hshow⟩
  have hlen' := hr.length_le
  refine (parseargs_complete hs args hr hstop (by omega) (by omega) hshow).weaken ?_
  rintro r' ⟨hr',hshow'⟩
  exact ⟨hr',by simpa using hshow'⟩

/-- **What derives from the grammar is accepted**, with the command that it stands for. -/
theorem parse_complete (hd : Derives a us c) : ∀ i vs n, At s i (us++vs) →
    follows a vs=true → 4*(us++vs).length+a.depth ≤ n →
    Yields (parse s a n i) fun r => At s r.2 vs ∧ Shows s r.1 c := by
  induction hd with
  | @last us c m hpipe ih =>
    intro i vs n hat hf hn
    obtain ⟨n,rfl⟩ : ∃ k, n=k+1 := ⟨n-1,by simp only [Nonterminal.depth] at hn; omega⟩
    obtain ⟨hfp,hamp,hsemi⟩ := follows_amps hf m
    rw [List.append_assoc] at hat hn
    obtain ⟨⟨cmd,j⟩,hp,hat₁,hshow⟩ := ih i _ n hat hfp (by simp only [Nonterminal.depth] at hn ⊢; omega)
    have hlen := hat₁.length_le
    obtain ⟨⟨cmd₁,j₁⟩,hbacks,hat₂,hshow₁⟩ := parsebacks_eq (k := s.length+1) hs m hat₁ hamp (by omega) hshow
    obtain ⟨j₂,hpeek,hat₃,-⟩ := peek_at hs hat₂ [59] rfl
    refine ⟨(cmd₁, j₂),?_,hat₃,hshow₁⟩
    have hp' : parsepipe s n i=.ok (cmd, j) := hp
    rw [parse,parseline]
    simp only [hp',hbacks,hpeek,hsemi,bind,Except.bind,Bool.false_eq_true,if_false]
  | @list us ws c d m hpipe hline ih ih' =>
    intro i vs n hat hf hn
    obtain ⟨n,rfl⟩ : ∃ k, n=k+1 := ⟨n-1,by simp only [Nonterminal.depth] at hn; omega⟩
    rw [List.append_assoc,List.append_assoc] at hat hn
    obtain ⟨⟨cmd,j⟩,hp,hat₁,hshow⟩ := ih i _ n hat (by cases m <;> rfl)
      (by simp only [Nonterminal.depth] at hn ⊢; omega)
    have hlen := hat₁.length_le
    obtain ⟨⟨cmd₁,j₁⟩,hbacks,hat₂,hshow₁⟩ := parsebacks_eq (k := s.length+1) hs m hat₁ rfl (by omega) hshow
    obtain ⟨j₂,hpeek,hat₃,-⟩ := peek_at hs hat₂ [59] rfl
    obtain ⟨w,j₃,htok,hat₄,-⟩ := gettoken_cons hs hat₃
    obtain ⟨⟨right,j₄⟩,hr,hat₅,hshow₂⟩ := ih' j₃ vs n hat₄ hf (by
      simp only [Nonterminal.depth,List.length_append,List.length_cons,List.cons_append] at hn ⊢
      omega)
    refine ⟨(.list cmd₁ right, j₄),?_,hat₅,hshow₁.list hshow₂⟩
    have hp' : parsepipe s n i=.ok (cmd, j) := hp
    have hr' : parseline s n j₃=.ok (right, j₄) := hr
    have hlead : leads [59] (.semi :: ws++vs)=true := rfl
    rw [parse,parseline]
    simp only [hp',hbacks,hpeek,hlead,bind,Except.bind,if_true,htok,hr']
  | @single us c hexec ih =>
    intro i vs n hat hf hn
    obtain ⟨n,rfl⟩ : ∃ k, n=k+1 := ⟨n-1,by simp only [Nonterminal.depth] at hn; omega⟩
    obtain ⟨hstop,hbar⟩ := follows_pipe hf
    obtain ⟨⟨cmd,j⟩,he,hat₁,hshow⟩ := ih i vs n hat hstop (by simp only [Nonterminal.depth] at hn ⊢; omega)
    obtain ⟨j₁,hpeek,hat₂,-⟩ := peek_at hs hat₁ [124] rfl
    refine ⟨(cmd, j₁),?_,hat₂,hshow⟩
    have he' : parseexec s n i=.ok (cmd, j) := he
    rw [parse,parsepipe]
    simp only [he',hpeek,hbar,bind,Except.bind,Bool.false_eq_true,if_false]
  | @pipe us ws c d hexec hpipe ih ih' =>
    intro i vs n hat hf hn
    obtain ⟨n,rfl⟩ : ∃ k, n=k+1 := ⟨n-1,by simp only [Nonterminal.depth] at hn; omega⟩
    rw [List.append_assoc] at hat hn
    obtain ⟨⟨cmd,j⟩,he,hat₁,hshow⟩ := ih i _ n hat rfl (by simp only [Nonterminal.depth] at hn ⊢; omega)
    obtain ⟨j₁,hpeek,hat₂,-⟩ := peek_at hs hat₁ [124] rfl
    obtain ⟨w,j₂,htok,hat₃,-⟩ := gettoken_cons hs hat₂
    obtain ⟨⟨right,j₃⟩,hr,hat₄,hshow₁⟩ := ih' j₂ vs n hat₃ hf (by
      simp only [Nonterminal.depth,List.length_append,List.length_cons,List.cons_append] at hn ⊢
      omega)
    refine ⟨(.pipe cmd right, j₃),?_,hat₄,hshow.pipe hshow₁⟩
    have he' : parseexec s n i=.ok (cmd, j) := he
    have hr' : parsepipe s n j₂=.ok (right, j₃) := hr
    have hlead : leads [124] (.bar :: ws++vs)=true := rfl
    rw [parse,parsepipe]
    simp only [he',hpeek,hlead,bind,Except.bind,if_true,htok,hr']
  | @block us c rs hline ih =>
    intro i vs n hat hf hn
    obtain ⟨n,rfl⟩ : ∃ k, n=k+2 := ⟨n-2,by simp only [Nonterminal.depth] at hn; omega⟩
    have hat' : At s i (.lpar :: (us++(.rpar :: (rs.flatMap Redir.tokens++vs)))) := by simpa using hat
    obtain ⟨j₁,hpeek,hat₁,-⟩ := peek_at hs hat' [40] rfl
    obtain ⟨j₂,hpeek₂,hat₂,-⟩ := peek_at hs hat₁ [40] rfl
    obtain ⟨w,j₃,htok,hat₃,-⟩ := gettoken_cons hs hat₂
    obtain ⟨⟨cmd,j₄⟩,hl,hat₄,hshow⟩ := ih j₃ _ n hat₃ rfl (by
      simp only [Nonterminal.depth,List.length_append,List.length_cons,List.cons_append] at hn ⊢
      omega)
    obtain ⟨j₅,hpeek₅,hat₅,-⟩ := peek_at hs hat₄ [41] rfl
    obtain ⟨w',j₆,htok₆,hat₆,-⟩ := gettoken_cons hs hat₅
    have hlen := hat₆.length_le
    obtain ⟨r,hr,hat₇,hshow₁⟩ := parseredirs_complete (k := s.length+1) hs rs hat₆ (stops_redir hf)
      (by omega) hshow
    refine ⟨r,?_,hat₇,hshow₁⟩
    have hl' : parseline s n j₃=.ok (cmd, j₄) := hl
    have hopen : leads [40] (.lpar :: (us++(.rpar :: (rs.flatMap Redir.tokens++vs))))=true := rfl
    have hclose : leads [41] (.rpar :: (rs.flatMap Redir.tokens++vs))=true := rfl
    rw [parse,parseexec,hpeek]
    simp only [hopen,bind,Except.bind,if_true]
    rw [parseblock,hpeek₂]
    simp only [hopen,bind,Except.bind,Bool.not_true,Bool.false_eq_true,if_false,htok,hl',hpeek₅,hclose,
      htok₆,hr]
  | exec rs args hlt =>
    intro i vs n hat hf hn
    obtain ⟨n,rfl⟩ : ∃ k, n=k+1 := ⟨n-1,by simp only [Nonterminal.depth] at hn; omega⟩
    rw [List.append_assoc] at hat
    exact parseexec_plain hs rs args hlt hat hf

end Completeness

section Strings
variable {mem : Nat → UInt8} {w : Span} {c : Cmd Word}

/-- The string at `q`, in a memory with a 0 at `es`. -/
def cstr (mem : Nat → UInt8) (es q : Nat) : List UInt8 :=
  ((List.range' q (es+1-q)).map mem).takeWhile (· != 0)

theorem foldl_nul (ws : List Span) (mem : Nat → UInt8) (k : Nat) :
    ws.foldl (fun mem w => update mem w.2 0) mem k = if k∈ws.map Prod.snd then 0 else mem k := by
  induction ws generalizing mem with
  | nil => rfl
  | cons w ws ih =>
    rw [List.foldl_cons,ih,List.map_cons]
    by_cases hin : k∈ws.map Prod.snd
    · rw [if_pos hin,if_pos (List.mem_cons_of_mem _ hin)]
    · by_cases hk : k=w.2
      · rw [if_neg hin,if_pos (by simp [hk]),hk,update_self]
      · rw [if_neg hin,if_neg (by simp [hk,hin]),update_of_ne hk]

theorem nulterminate_eq (cmd : Cmd Span) (mem : Nat → UInt8) (k : Nat) :
    nulterminate cmd mem k = if k∈cmd.words.map Prod.snd then 0 else mem k := by
  have hboth {x y : List Span} {m : Nat → UInt8} :
      (if k∈y.map Prod.snd then 0 else if k∈x.map Prod.snd then 0 else m k) =
        if k∈(x++y).map Prod.snd then 0 else m k := by
    simp only [List.map_append,List.mem_append]
    by_cases hx : k∈x.map Prod.snd
    · simp only [hx,if_true,true_or,ite_self]
    · simp only [hx,if_false,false_or]
  induction cmd generalizing mem with
  | exec argv => exact foldl_nul argv mem k
  | redir cmd file mode fd ih =>
    have hone : update (nulterminate cmd mem) file.2 0 k =
        [file].foldl (fun mem w => update mem w.2 0) (nulterminate cmd mem) k := rfl
    rw [nulterminate,hone,foldl_nul,ih,Cmd.words,hboth]
  | pipe left right ihl ihr => rw [nulterminate,ihr,ihl,Cmd.words,hboth]
  | list left right ihl ihr => rw [nulterminate,ihr,ihl,Cmd.words,hboth]
  | back cmd ih => rw [nulterminate,ih,Cmd.words]

theorem Shows.cstr_eq (hs : 0∉s) (h : Shows s cmd c) (hw : w∈cmd.words) :
    cstr (nulterminate cmd fun i => s.getD i 0) s.length w.1=Span.text s w := by
  have hg := h.good w hw
  have hle := hg.le
  have hin := hg.inside
  -- inside of a word there is no end of a word
  have hinside (k : Nat) (hk : w.1 ≤ k) (hk' : k < w.2) :
      nulterminate cmd (fun i => s.getD i 0) k=s.getD k 0 := by
    rw [nulterminate_eq]
    refine if_neg fun hmem => ?_
    obtain ⟨v,hv,rfl⟩ := List.mem_map.mp hmem
    rcases (h.good v hv).stop with hend | hstop
    · omega
    · rw [hg.word v.2 hk hk'] at hstop
      cases hstop
  have hend : nulterminate cmd (fun i => s.getD i 0) w.2=0 := by
    rw [nulterminate_eq,if_pos (List.mem_map.mpr ⟨w,hw,rfl⟩)]
  have hsplit : List.range' w.1 (s.length+1-w.1) =
      List.range' w.1 (w.2-w.1)++w.2 :: List.range' (w.2+1) (s.length-w.2) := by
    have happ := List.range'_append_1 (s := w.1) (m := w.2-w.1) (n := s.length-w.2+1)
    rw [show w.1+(w.2-w.1)=w.2 by omega,List.range'_succ] at happ
    rw [happ]
    congr 1
    omega
  have htext : (List.range' w.1 (w.2-w.1)).map (nulterminate cmd fun i => s.getD i 0)=Span.text s w := by
    refine List.ext_getElem ?_ fun k hk hk' => ?_
    · simp [Span.text]
      omega
    · simp only [List.length_map,List.length_range'] at hk
      simp only [List.getElem_map,List.getElem_range',Nat.one_mul,Span.text,List.getElem_take,
        List.getElem_drop]
      rw [hinside _ (by omega) (by omega),List.getD_eq_getElem]
  have hne : ∀ x∈Span.text s w, (x != 0)=true := by
    intro x hx
    have hmem : x∈s := List.mem_of_mem_drop (List.mem_of_mem_take hx)
    exact bne_iff_ne.mpr fun he => hs (he ▸ hmem)
  rw [cstr,hsplit,List.map_append,htext,List.map_cons,hend,List.takeWhile_append_of_pos hne]
  simp

theorem words_map {ω ω' : Type} (f : ω → ω') (c : Cmd ω) : (c.map f).words=c.words.map f := by
  induction c with
  | exec argv => rfl
  | redir cmd file mode fd ih => rw [Cmd.map,Cmd.words,Cmd.words,ih,List.map_append,List.map_singleton]
  | pipe left right ihl ihr => rw [Cmd.map,Cmd.words,Cmd.words,ihl,ihr,List.map_append]
  | list left right ihl ihr => rw [Cmd.map,Cmd.words,Cmd.words,ihl,ihr,List.map_append]
  | back cmd ih => exact ih

theorem map_congr_words {ω ω' : Type} {f g : ω → ω'} {c : Cmd ω} (h : ∀ w∈c.words, f w=g w) :
    c.map f=c.map g := by
  induction c with
  | exec argv =>
    have hargv : argv.map f=argv.map g := List.map_congr_left h
    rw [Cmd.map,Cmd.map,hargv]
  | redir cmd file mode fd ih =>
    rw [Cmd.map,Cmd.map,ih fun w hw => h w (List.mem_append_left _ hw),
      h file (List.mem_append_right _ (List.mem_singleton.mpr rfl))]
  | pipe left right ihl ihr =>
    rw [Cmd.map,Cmd.map,ihl fun w hw => h w (List.mem_append_left _ hw),
      ihr fun w hw => h w (List.mem_append_right _ hw)]
  | list left right ihl ihr =>
    rw [Cmd.map,Cmd.map,ihl fun w hw => h w (List.mem_append_left _ hw),
      ihr fun w hw => h w (List.mem_append_right _ hw)]
  | back cmd ih => rw [Cmd.map,Cmd.map,ih h]

end Strings

/-- The command that `parsecmd` returns, with its words read from memory. -/
def parsed (s : List UInt8) (r : Cmd Span × (Nat → UInt8)) : Cmd Word :=
  r.1.map fun w => cstr r.2 s.length w.1

theorem Shows.parsed (hs : 0∉s) (h : Shows s cmd c) :
    Shell.parsed s (cmd, nulterminate cmd fun i => s.getD i 0)=c := by
  rw [Shell.parsed,map_congr_words fun w hw => h.cstr_eq hs hw]
  exact h.text

theorem parsecmd_shows (hs : 0∉s) :
    Ends Proper (parsecmd s) fun r => r.2=nulterminate r.1 (fun i => s.getD i 0) ∧
      ∃ c, Shows s r.1 c ∧ Derives .line (tokens s) c := by
  have hstart : At s 0 (tokens s) := ⟨Nat.zero_le _,rfl⟩
  have hlen := hstart.length_le
  refine ((parse_ends hs (4*s.length+4) 0 (tokens s) hstart).1 (by omega)).bind ?_
  rintro ⟨cmd,j⟩ ⟨us,vs,c,hts,hd,hat,hshow⟩
  obtain ⟨j₁,hpeek,hat₁,-⟩ := peek_at hs hat [] rfl
  simp only [hpeek,bind,Except.bind]
  by_cases hend : j₁=s.length
  · subst hend
    -- at the end of the line no token is left
    have hnil : vs=[] := by
      have hrest := hat₁.rest
      rw [List.drop_length] at hrest
      exact hrest.symm.trans (tokens_of_lex_none rfl)
    subst hnil
    rw [if_neg (not_not_intro rfl)]
    refine .ok ⟨rfl,c,hshow,?_⟩
    rw [hts,List.append_nil]
    exact hd
  · rw [if_pos hend]
    exact .error ⟨by decide,by decide⟩

theorem parsecmd_ends (hs : 0∉s) :
    Ends Proper (parsecmd s) fun r => Derives .line (tokens s) (parsed s r) := by
  refine (parsecmd_shows hs).weaken ?_
  rintro r ⟨hmem,c,hshow,hd⟩
  have hr : r=(r.1, nulterminate r.1 fun i => s.getD i 0) := Prod.ext rfl hmem
  rw [hr,hshow.parsed hs]
  exact hd

theorem parsecmd_complete (hs : 0∉s) (hd : Derives .line (tokens s) c) :
    Yields (parsecmd s) fun r => parsed s r=c := by
  have hstart : At s 0 (tokens s++[]) := ⟨Nat.zero_le _,by rw [List.append_nil]; rfl⟩
  have hlen := hstart.length_le
  have hparse : Yields (parseline s (4*s.length+4) 0) fun r => At s r.2 [] ∧ Shows s r.1 c :=
    parse_complete hs hd 0 [] (4*s.length+4) hstart rfl (by
      simp only [Nonterminal.depth]
      omega)
  refine hparse.bind ?_
  rintro ⟨cmd,j⟩ ⟨hat,hshow⟩
  obtain ⟨j₁,hpeek,-,hend⟩ := peek_at hs hat [] rfl
  simp only [hpeek,bind,Except.bind,hend rfl,ne_eq,not_true_eq_false,if_false]
  exact .ok (hshow.parsed hs)

/-- **The parser accepts just its grammar.** On every command line without a 0, `parsecmd` returns
a command exactly if the tokens derive from `line`, and it is the one of the derivation; else it
panics in one of its own ways. -/
theorem parsecmd_accepts_grammar (s : List UInt8) (hs : 0∉s) :
    (∀ c, (∃ r, parsecmd s=.ok r ∧ parsed s r=c) ↔ Derives .line (tokens s) c) ∧
      ∀ e, parsecmd s=.error e → e≠.wild ∧ e≠.fuel := by
  refine ⟨fun c => ⟨?_,parsecmd_complete hs⟩,fun e he => ?_⟩
  · rintro ⟨r,hr,rfl⟩
    exact (parsecmd_ends hs).apply hr
  · rcases parsecmd_ends hs with ⟨r,hr,-⟩ | ⟨e',he',hp⟩
    · cases hr.symm.trans he
    · obtain rfl : e'=e := Except.error.inj (he'.symm.trans he)
      exact hp

/-- `(a>b)|c d&` -/
def sampleLine : List UInt8 := [40, 97, 62, 98, 41, 124, 99, 32, 100, 38]

theorem sampleLine_derives : Derives .line (tokens sampleLine)
    (.back (.pipe (.redir (.exec [[97]]) [98] 0x601 1) (.exec [[99], [100]]))) := by
  refine ((parsecmd_accepts_grammar sampleLine (by decide)).1 _).mp ?_
  have hrun : (parsecmd sampleLine).toOption.map (parsed sampleLine) =
      some (.back (.pipe (.redir (.exec [[97]]) [98] 0x601 1) (.exec [[99], [100]]))) := by decide +kernel
  cases hr : parsecmd sampleLine with
  | error e =>
    rw [hr] at hrun
    cases hrun
  | ok r =>
    rw [hr] at hrun
    exact ⟨r,rfl,Option.some.inj hrun⟩

theorem words_back (n : Nat) (c : Cmd Word) : (Cmd.back^[n] c).words=c.words := by
  induction n generalizing c with
  | zero => rfl
  | succ n ih => exact ih (.back c)

theorem words_wrap (rs : List Redir) (c : Cmd Word) :
    (rs.foldl Redir.wrap c).words=c.words++rs.map Redir.file := by
  induction rs generalizing c with
  | nil => exact (List.append_nil _).symm
  | cons r rs ih =>
    rw [List.foldl_cons,ih,List.map_cons]
    exact List.append_assoc c.words [r.file] (rs.map Redir.file)

theorem file_mem {rs : List Redir} (h : x∈rs.map Redir.file) :
    Token.word x∈rs.flatMap Redir.tokens := by
  obtain ⟨r,hr,rfl⟩ := List.mem_map.mp h
  exact List.mem_flatMap.mpr ⟨r,hr,by simp [Redir.tokens]⟩

theorem Derives.word_mem {a : Nonterminal}
    (hd : Derives a us c) (hx : x∈c.words) : Token.word x∈us := by
  induction hd with
  | last n hd ih =>
    rw [words_back] at hx
    exact List.mem_append_left _ (ih hx)
  | list n hd hd' ih ih' =>
    rw [Cmd.words,words_back,List.mem_append] at hx
    rcases hx with hx | hx
    · exact List.mem_append_left _ (ih hx)
    · exact List.mem_append_right _ (List.mem_append_right _ (List.mem_cons_of_mem _ (ih' hx)))
  | single hd ih => exact ih hx
  | pipe hd hd' ih ih' =>
    rcases List.mem_append.mp hx with hx | hx
    · exact List.mem_append_left _ (ih hx)
    · exact List.mem_append_right _ (List.mem_cons_of_mem _ (ih' hx))
  | block rs hd ih =>
    rw [words_wrap,List.mem_append] at hx
    rcases hx with hx | hx
    · exact List.mem_cons_of_mem _ (List.mem_append_left _ (ih hx))
    · exact List.mem_cons_of_mem _ (List.mem_append_right _ (List.mem_cons_of_mem _ (file_mem hx)))
  | exec rs args hlt =>
    rw [words_wrap,List.map_append,List.mem_append,List.mem_append] at hx
    rcases hx with hx | hx | hx
    · obtain ⟨arg,harg,rfl⟩ := List.mem_map.mp hx
      exact List.mem_append_right _ (List.mem_flatMap.mpr ⟨arg,harg,List.mem_cons_self⟩)
    · exact List.mem_append_left _ (file_mem hx)
    · obtain ⟨r,hr,rfl⟩ := List.mem_map.mp hx
      obtain ⟨arg,harg,hr⟩ := List.mem_flatMap.mp hr
      refine List.mem_append_right _ (List.mem_flatMap.mpr ⟨arg,harg,List.mem_cons_of_mem _ ?_⟩)
      exact file_mem (List.mem_map_of_mem hr)

/-- **Words stay intact.** Behind each word of the command that `parsecmd` returns there is a 0 in
memory, so the string that starts there is the text of the token that it was parsed from. -/
theorem nulterminate_keeps_words {r : Cmd Span × (Nat → UInt8)} (hs : 0∉s) (hr : parsecmd s=.ok r) :
    (∀ w∈r.1.words, cstr r.2 s.length w.1=Span.text s w ∧ Token.word (Span.text s w)∈tokens s) ∧
      Derives .line (tokens s) (r.1.map (Span.text s)) := by
  obtain ⟨hmem,c,hshow,hd⟩ := (parsecmd_shows hs).apply hr
  rw [← hshow.text] at hd
  refine ⟨fun w hw => ⟨?_,hd.word_mem ?_⟩,hd⟩
  · rw [hmem]
    exact hshow.cstr_eq hs hw
  · rw [words_map]
    exact List.mem_map_of_mem hw

/-- `(ab>c)|d` -/
def tightLine : List UInt8 := [40, 97, 98, 62, 99, 41, 124, 100]

theorem tightLine_words : ∃ r, parsecmd tightLine=.ok r ∧ r.1.words=[(1, 3), (4, 5), (7, 8)] ∧
    ∀ w∈r.1.words, cstr r.2 8 w.1=Span.text tightLine w := by
  have hrun : (parsecmd tightLine).toOption.map (fun r => r.1.words)=some [(1, 3), (4, 5), (7, 8)] := by
    decide +kernel
  cases hr : parsecmd tightLine with
  | error e =>
    rw [hr] at hrun
    cases hrun
  | ok r =>
    rw [hr] at hrun
    exact ⟨r,rfl,Option.some.inj hrun,fun w hw => ((nulterminate_keeps_words (by decide) hr).1 w hw).1⟩

end Xv6.Shell
