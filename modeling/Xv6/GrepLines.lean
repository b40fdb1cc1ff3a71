import Xv6.Grep

/-! The loop of `grep` over what `read` returns, with its buffer of 1024 bytes. Pointers into the
buffer are indices. -/
namespace Xv6.Grep
variable {re tail : List UInt8} {ls lines : List (List UInt8)}

def newline : UInt8 := 10
/-- `sizeof(buf)` -/
def bufsize : Nat := 1024

/-- `strchr`, on the memory from `s` on. -/
def strchr (c : UInt8) : List UInt8 → Option Nat
  | [] => none
  | b :: s => if b=0 then none else if b=c then some 0 else (strchr c s).map (· + 1)

def cstring (s : List UInt8) : List UInt8 := s.takeWhile (· ≠ 0)

def scan (re : List UInt8) : Nat → List UInt8 → Nat → List UInt8 × Nat × List UInt8
  | 0, buf, p => (buf, p, [])
  | n+1, buf, p =>
    match strchr newline (buf.drop p) with
    | none => (buf, p, [])
    | some k =>
      let buf := buf.set (p+k) 0
      if match_ re (cstring (buf.drop p)) then
        let buf := buf.set (p+k) newline
        let r := scan re n buf (p+k+1)
        (r.1, r.2.1, (buf.drop p).take (k+1)++r.2.2)
      else scan re n buf (p+k+1)

/-- `read` of at most `room` bytes of what is left of the file: none at the end or if there is no
room, and otherwise as many as it wishes to return, but at least one. -/
def readCount (wish room left : Nat) : Nat := min (max wish 1) (min room left)

/-- The rounds of the outer loop, with `m` bytes of an unfinished line in the buffer. -/
def grepFrom (re : List UInt8) (wish : Nat → Nat) :
    Nat → List UInt8 → Nat → List UInt8 → List UInt8
  | 0, _, _, _ => []
  | i+1, buf, m, file =>
    let n := readCount (wish i) (bufsize-m-1) file.length
    if n=0 then []
    else
      let buf := (buf.take m++file.take n++buf.drop (m+n)).set (m+n) 0
      let r := scan re bufsize buf 0
      -- `m > 0` holds after a read of some bytes
      let left := m+n-r.2.1
      let buf := (r.1.drop r.2.1).take left++r.1.drop left
      r.2.2++grepFrom re wish i buf left (file.drop n)

/-- What `grep` writes for a file. A round takes at least a byte. -/
def grep (re : List UInt8) (wish : Nat → Nat) (buf file : List UInt8) : List UInt8 :=
  grepFrom re wish (file.length+1) buf 0 file

def unlines (lines : List (List UInt8)) : List UInt8 := lines.flatMap (· ++ [newline])

theorem unlines_cons (l : List UInt8) (ls : List (List UInt8)) :
    unlines (l::ls)=l++newline :: unlines ls := by simp [unlines]

theorem unlines_append (ls ls' : List (List UInt8)) :
    unlines (ls++ls')=unlines ls++unlines ls' :=
  List.flatMap_append

def Line (l : List UInt8) : Prop := newline∉l ∧ 0∉l

theorem unlines_split {x y : List UInt8} (hlines : ∀ l∈lines, Line l) (h : x++y=unlines lines) :
    ∃ ls lines' tail, lines=ls++lines' ∧ x=unlines ls++tail ∧ tail++y=unlines lines' ∧
      newline∉tail := by
  induction lines generalizing x with
  | nil =>
    obtain ⟨rfl,rfl⟩ := List.append_eq_nil_iff.mp h
    exact ⟨[],[],[],rfl,rfl,rfl,nofun⟩
  | cons l lines ih =>
    rw [unlines_cons] at h
    obtain ⟨hl,hlines⟩ := List.forall_mem_cons.mp hlines
    rcases List.append_eq_append_iff.mp h with ⟨a,ha,hy⟩ | ⟨c,hx,hc⟩
    · -- the newline of the first line has not been read
      refine ⟨[],l::lines,x,rfl,rfl,by rw [unlines_cons,h],fun hmem => ?_⟩
      exact hl.1 (ha ▸ List.mem_append_left a hmem)
    · cases c with
      | nil =>
        refine ⟨[],l::lines,x,rfl,rfl,by rw [unlines_cons,h],fun hmem => ?_⟩
        rw [hx,List.append_nil] at hmem
        exact hl.1 hmem
      | cons b c =>
        obtain ⟨rfl,hrest⟩ := List.cons.inj hc
        obtain ⟨ls,lines',tail,rfl,rfl,hy,htail⟩ := ih hlines hrest.symm
        refine ⟨l::ls,lines',tail,rfl,?_,hy,htail⟩
        rw [hx,unlines_cons,List.append_assoc,List.cons_append]

theorem strchr_line {l : List UInt8} (h : Line l) (rest : List UInt8) :
    strchr newline (l++newline::rest)=some l.length := by
  induction l with
  | nil => simp [strchr,newline]
  | cons b l ih =>
    obtain ⟨hnl,h0⟩ := h
    rw [List.mem_cons,not_or] at hnl h0
    rw [List.cons_append,strchr,if_neg (Ne.symm h0.1),if_neg (Ne.symm hnl.1),ih ⟨hnl.2,h0.2⟩]
    rfl

theorem strchr_none (h : newline∉tail) (rest : List UInt8) :
    strchr newline (tail++0::rest)=none := by
  induction tail with
  | nil => rfl
  | cons b tail ih =>
    rw [List.mem_cons,not_or] at h
    rw [List.cons_append,strchr,if_neg (Ne.symm h.1),ih h.2]
    simp

theorem cstring_line {l : List UInt8} (h : Line l) (rest : List UInt8) :
    cstring (l++0::rest)=l := by
  have hne : ∀ b∈l, decide (b≠0)=true := fun b hb => decide_eq_true fun h0 => h.2 (h0 ▸ hb)
  rw [cstring,List.takeWhile_append_of_pos hne]
  simp

theorem set_after (pre l : List UInt8) (b c : UInt8) (rest : List UInt8) :
    (pre++(l++b::rest)).set (pre.length+l.length) c=pre++(l++c::rest) := by
  simp

theorem scan_lines (re rest : List UInt8) (hls : ∀ l∈ls, Line l) (htail : newline∉tail) {n : Nat}
    (hn : ls.length ≤ n) (pre : List UInt8) :
    ∃ done, done.length=pre.length+(unlines ls).length ∧
      scan re n (pre++(unlines ls++(tail++0::rest))) pre.length =
        (done++(tail++0::rest),done.length,unlines (ls.filter (match_ re))) := by
  induction ls generalizing n pre with
  | nil =>
    refine ⟨pre,rfl,?_⟩
    cases n with
    | zero => rfl
    | succ n => simp [scan,unlines,strchr_none htail]
  | cons l ls ih =>
    obtain ⟨hl,hls⟩ := List.forall_mem_cons.mp hls
    obtain ⟨n,rfl⟩ : ∃ k, n=k+1 := ⟨n-1,by simp at hn; omega⟩
    have hn : ls.length ≤ n := by simpa using hn
    have hstep : ∀ b : UInt8, ∃ done, done.length=pre.length+(unlines (l::ls)).length ∧
        scan re n (pre++(l++b::(unlines ls++(tail++0::rest)))) (pre.length+l.length+1) =
          (done++(tail++0::rest),done.length,unlines (ls.filter (match_ re))) := by
      intro b
      obtain ⟨done,hlen,hscan⟩ := ih hls hn (pre++(l++[b]))
      refine ⟨done,by simp [hlen,unlines_cons]; omega,?_⟩
      rw [← hscan]
      simp [Nat.add_assoc]
    rw [unlines_cons,List.append_assoc,List.cons_append,scan,List.drop_left,strchr_line hl]
    simp only [set_after,List.drop_left,cstring_line hl,List.filter_cons]
    split
    · obtain ⟨done,hlen,hscan⟩ := hstep newline
      refine ⟨done,by rw [hlen,unlines_cons],?_⟩
      rw [hscan,unlines_cons]
      simp [List.take_append,List.take_of_length_le]
    · obtain ⟨done,hlen,hscan⟩ := hstep 0
      exact ⟨done,by rw [hlen,unlines_cons],hscan⟩

def fits (l : List UInt8) : Bool := l.length+2 ≤ bufsize

theorem length_unlines_mem {l : List UInt8} (h : l∈ls) : l.length+1≤(unlines ls).length := by
  induction ls with
  | nil => simp at h
  | cons a ls ih =>
    rw [unlines_cons,List.length_append,List.length_cons]
    rcases List.mem_cons.mp h with rfl | h
    · omega
    · have := ih h
      omega

theorem length_le_unlines (ls : List (List UInt8)) : ls.length≤(unlines ls).length := by
  induction ls with
  | nil => simp
  | cons a ls ih =>
    rw [unlines_cons,List.length_append,List.length_cons,List.length_cons]
    omega

theorem held_first {held file : List UInt8} (hnl : newline∉held) (h : held++file=unlines lines)
    (hheld : held≠[]) : ∃ l lines', lines=l::lines' ∧ held.length ≤ l.length := by
  cases lines with
  | nil => exact (hheld (List.append_eq_nil_iff.mp h).1).elim
  | cons l lines' =>
    refine ⟨l,lines',rfl,?_⟩
    rw [unlines_cons] at h
    rcases List.append_eq_append_iff.mp h with ⟨a,rfl,-⟩ | ⟨c,rfl,hc⟩
    · simp
    · cases c with
      | nil => simp
      | cons b c =>
        obtain ⟨rfl,-⟩ := List.cons.inj hc
        exact (hnl (by simp)).elim

theorem stops_at {held file : List UInt8} (hnl : newline∉held) (h : held++file=unlines lines)
    {wish : Nat} (hn : readCount wish (bufsize-held.length-1) file.length=0) :
    lines.takeWhile fits=[] := by
  by_cases hheld : held=[]
  · subst hheld
    cases lines with
    | nil => rfl
    | cons l lines =>
      have hlen := congrArg List.length h
      rw [unlines_cons,List.nil_append,List.length_append,List.length_cons] at hlen
      simp only [readCount,bufsize,List.length_nil] at hn
      omega
  · obtain ⟨l,lines',rfl,hl⟩ := held_first hnl h hheld
    have hlen := congrArg List.length h
    rw [unlines_cons,List.length_append,List.length_append,List.length_cons] at hlen
    simp only [readCount,bufsize] at hn
    have hlong : fits l=false := decide_eq_false (by simp only [bufsize]; omega)
    rw [List.takeWhile_cons,hlong]
    rfl

theorem grepFrom_lines (wish : Nat → Nat) {i : Nat} (held : List UInt8) {buf file : List UInt8}
    (hbuf : buf.length=bufsize) (hlines : ∀ l∈lines, Line l) (hheld : buf.take held.length=held)
    (hnl : newline∉held) (hm : held.length < bufsize) (h : held++file=unlines lines) (hi : file.length < i) :
    grepFrom re wish i buf held.length file=unlines ((lines.takeWhile fits).filter (match_ re)) := by
  induction i generalizing buf held file lines with
  | zero => omega
  | succ i ih =>
    rw [grepFrom]
    dsimp only
    split
    · rename_i hn
      rw [stops_at hnl h hn]
      rfl
    · rename_i hn
      generalize hcount : readCount (wish i) (bufsize-held.length-1) file.length=n at hn ⊢
      have hroom : held.length+n < bufsize ∧ n ≤ file.length := by
        simp only [readCount] at hcount
        omega
      rw [← List.take_append_drop n file,← List.append_assoc] at h
      obtain ⟨ls,lines',tail,rfl,hx,hy,htail⟩ := unlines_split hlines h
      obtain ⟨hls,hlines'⟩ := List.forall_mem_append.mp hlines
      have hlen : held.length+n=(unlines ls).length+tail.length := by
        rw [← List.length_append,← hx,List.length_append,List.length_take]
        omega
      -- the bytes read complete the lines of `ls` and start the next one
      obtain ⟨b,rest,hrest⟩ : ∃ b rest, buf.drop (held.length+n)=b::rest :=
        List.exists_cons_of_length_pos (by rw [List.length_drop]; omega)
      have hstored : (buf.take held.length++file.take n++buf.drop (held.length+n)).set
          (held.length+n) 0=[]++(unlines ls++(tail++0::rest)) := by
        rw [hheld,hx,hrest,hlen,List.append_assoc,set_after,List.nil_append]
      have hfew : ls.length ≤ bufsize := by
        have := length_le_unlines ls
        omega
      obtain ⟨done,hdone,hscan⟩ := scan_lines re rest hls htail hfew []
      rw [List.length_nil] at hscan
      have hleft : held.length+n-done.length=tail.length := by
        rw [hdone,hlen,List.length_nil]
        omega
      have hlong : (done++(tail++0::rest)).length=bufsize := by
        have hstart := congrArg List.length hrest
        rw [List.length_drop,List.length_cons] at hstart
        rw [List.length_append,hdone,List.length_append,List.length_cons,List.length_nil]
        omega
      have hnext : grepFrom re wish i (tail++(done++(tail++0::rest)).drop tail.length) tail.length
          (file.drop n)=unlines ((lines'.takeWhile fits).filter (match_ re)) := by
        refine ih tail ?_ hlines' List.take_left htail (by omega) hy ?_
        · rw [List.length_append,List.length_drop,hlong]
          omega
        · rw [List.length_drop]
          omega
      have hfit : ∀ l∈ls, fits l=true := by
        intro l hl
        have := length_unlines_mem hl
        exact decide_eq_true (by omega)
      rw [hstored,hscan]
      rw [hleft,List.drop_left,List.take_left,hnext,List.takeWhile_append_of_pos hfit,
        List.filter_append,unlines_append]

/-- The output does not depend on how the reads split the file, but stops at the first line that
does not fit. -/
theorem grep_lines (wish : Nat → Nat) {buf : List UInt8} (hbuf : buf.length=bufsize)
    (hlines : ∀ l∈lines, Line l) :
    grep re wish buf (unlines lines)=unlines ((lines.takeWhile fits).filter (match_ re)) :=
  grepFrom_lines wish [] hbuf hlines rfl List.not_mem_nil (by decide) rfl (Nat.lt_succ_self _)

theorem eq_nil_of_unlines {ls' : List (List UInt8)} (h : unlines ls=unlines (ls++ls')) :
    ls'=[] := by
  have hlen := congrArg List.length h
  rw [unlines_append,List.length_append] at hlen
  have := length_le_unlines ls'
  exact List.eq_nil_of_length_eq_zero (by omega)

/-- `grep` writes the matching lines of a file, however it is read, exactly if no line matches from
the first one on that does not fit the buffer. -/
theorem grep_complete_iff (re : List UInt8) (wish : Nat → Nat) {buf : List UInt8}
    (hbuf : buf.length=bufsize) (hlines : ∀ l∈lines, Line l) :
    grep re wish buf (unlines lines)=unlines (lines.filter (match_ re)) ↔
      ∀ l∈lines.dropWhile fits, match_ re l=false := by
  have hsplit : lines.filter (match_ re) =
      (lines.takeWhile fits).filter (match_ re)++(lines.dropWhile fits).filter (match_ re) := by
    rw [← List.filter_append,List.takeWhile_append_dropWhile]
  rw [grep_lines wish hbuf hlines,hsplit]
  constructor
  · intro h l hl
    have hnone := List.filter_eq_nil_iff.mp (eq_nil_of_unlines h)
    exact Bool.eq_false_iff.mpr (hnone l hl)
  · intro h
    have hnone : (lines.dropWhile fits).filter (match_ re)=[] :=
      List.filter_eq_nil_iff.mpr fun l hl => Bool.eq_false_iff.mp (h l hl)
    rw [hnone,List.append_nil]

/-- Two lines in a file that is read a byte at a time. -/
theorem grep_short_lines :
    grep [97] (fun _ => 1) (List.replicate bufsize 0) (unlines [[98],[97]]) =
      unlines ([[98],[97]].filter (match_ [97])) :=
  (grep_complete_iff [97] _ List.length_replicate (by simp [Line,newline])).mpr (by decide)

/-- A line of 1023 letters, and one more line. -/
def longFile : List (List UInt8) := [List.replicate 1023 98,[97]]

/-- After 1023 bytes there is no room for the newline, `read` returns 0, and the second line is
never looked at. -/
theorem grep_longFile :
    (∀ l∈longFile, Line l) ∧ match_ [97] [97]=true ∧
      grep [97] (fun _ => bufsize) (List.replicate bufsize 0) (unlines longFile)=[] := by
  have hlines : ∀ l∈longFile, Line l := by
    refine List.forall_mem_cons.mpr ⟨⟨fun h => ?_,fun h => ?_⟩,by simp [Line,newline]⟩
    · exact absurd (List.eq_of_mem_replicate h) (by decide)
    · exact absurd (List.eq_of_mem_replicate h) (by decide)
  have hlong : longFile.takeWhile fits=[] := by
    have hfits : fits (List.replicate 1023 98)=false := by
      rw [fits,List.length_replicate]
      rfl
    rw [longFile,List.takeWhile_cons,hfits]
    rfl
  refine ⟨hlines,by simp [match_,matchFrom,matchhere,hat,star,dollar,dot],?_⟩
  rw [grep_lines _ List.length_replicate hlines,hlong]
  rfl
end Xv6.Grep
