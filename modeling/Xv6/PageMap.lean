import Xv6.PageWords
import Xv6.VmSpec

/-! A page table in memory is a map from virtual pages to PTEs. Every table page has a place, the
indices of the entries that lead to it from the root, so no page is shared. -/
namespace Xv6.PageWords
open Xv6.Vm (maxva phystop add64 pgrounddown px Index Panic pgsize_eq maxva_eq)
open Xv6.Machine

theorem valid_or (x : Nat) : valid (x ||| pteV)=true := by
  have hbit : (x ||| 1) &&& 1=1 := by
    rcases Nat.mod_two_eq_zero_or_one x with h | h <;> simp [h]
  simp [valid,pteV,hbit]

theorem or_low (n : Nat) {x : Nat} (hx : x<2^10) : n <<< 10 ||| x=n*1024+x := by
  rw [← Nat.shiftLeft_add_eq_or_of_lt hx,Nat.shiftLeft_eq]

theorem pte2pa_pa2pte {pa flags : Nat} (hpa : pa<2^64) (hflags : flags<2^10) :
    pte2pa (pa2pte pa ||| flags)=pgrounddown pa := by
  rw [pte2pa,pa2pte,or_low _ hflags,pgrounddown,pgsize_eq,Nat.shiftRight_eq_div_pow,
    Nat.shiftRight_eq_div_pow,Nat.shiftLeft_eq]
  omega

theorem pte2pa_link {p : Nat} (halign : p%pgsize=0) (hlt : p<2^64) :
    pte2pa (pa2pte p ||| pteV)=p := by
  rw [pte2pa_pa2pte hlt (by decide)]
  rw [pgrounddown,pgsize_eq] at *
  omega

theorem Ram.fill_tables (s : Ram) (p : Nat) (v : Nat → Nat) : (s.fill p v).tables=s.tables := rfl

theorem slot_inj {p q : Nat} {i j : Index} (hp : p%pgsize=0) (hq : q%pgsize=0)
    (h : slot p i=slot q j) : p=q ∧ i=j := by
  rw [pgsize_eq] at hp hq
  simp only [slot] at h
  exact ⟨by omega,Fin.ext (by omega)⟩

theorem slot_mem {p q : Nat} {i : Index} (hp : p%pgsize=0) (hq : q%pgsize=0) :
    q ≤ slot p i ∧ slot p i < q+pgsize ↔ p=q := by
  rw [pgsize_eq] at *
  simp only [slot]
  omega

/-- The table that the walk along the indices `path` leads to, from the table at `p`. -/
def descend (word : Nat → Nat) (p : Nat) : List Index → Option Nat
  | [] => some p
  | i :: path =>
    if valid (word (slot p i)) then descend word (pte2pa (word (slot p i))) path else none

theorem descend_append {word : Nat → Nat} {p q r : Nat} {is js : List Index}
    (hq : descend word p is=some q) (hr : descend word q js=some r) :
    descend word p (is++js)=some r := by
  induction is generalizing p with
  | nil =>
    cases hq
    exact hr
  | cons i is ih =>
    rw [descend] at hq
    rw [List.cons_append,descend]
    split at hq
    · rename_i hv
      rw [if_pos hv]
      exact ih hq
    · cases hq

def entry (w : Nat) : Option Nat := if valid w then some w else none

theorem walk_noalloc {va : Nat} (s : Ram) (root : Nat) (hva : va < maxva) : walk s root va false =
      .ok (s, (descend s.word root [px 2 va, px 1 va]).map fun q => slot q (px 0 va)) := by
  rw [walk,if_neg (Nat.not_le.mpr hva)]
  simp only [walkLevel,descend]
  cases valid (s.word (slot root (px 2 va))) with
  | false => rfl
  | true =>
    simp only [↓reduceIte]
    cases valid (s.word (slot (pte2pa (s.word (slot root (px 2 va)))) (px 1 va))) with
    | false => rfl
    | true => rfl

theorem translate_eq {va : Nat} (s : Ram) (root : Nat) (hva : va < maxva) :
    translate s root va=(descend s.word root [px 2 va, px 1 va]).bind
      fun q => entry (s.word (slot q (px 0 va))) := by
  rw [translate,walk_noalloc s root hva]
  cases descend s.word root [px 2 va, px 1 va] <;> rfl

theorem translate_lt {s : Ram} {root va pte : Nat} (h : translate s root va=some pte) :
    va < maxva := by
  rw [translate,walk] at h
  split at h
  · rename_i hw
    split at hw
    · cases hw
    · rename_i hva
      exact Nat.not_le.mp hva
  · cases h

section Fresh
variable {s : Ram} {q : Nat} {supply : List (Option Nat)}

theorem Fresh.head (h : Fresh s) (hs : s.supply=some q :: supply) :
    q%pgsize=0 ∧ q<2^64 ∧ q∉s.tables := by
  have hmem : some q∈s.supply := by simp [hs]
  exact ⟨(h.page q hmem).1,(h.page q hmem).2,h.unused q hmem⟩

theorem Fresh.rest (h : Fresh s) {x : Option Nat} (hs : s.supply=x::supply) :
    Fresh { s with supply := supply } := by
  have hmem : ∀ p, some p∈supply → some p∈s.supply := fun p hp => by simp [hs,hp]
  refine ⟨fun p hp => h.page p (hmem p hp),?_,fun p hp => h.unused p (hmem p hp)⟩
  have hdistinct := h.distinct
  rw [hs] at hdistinct
  cases x with
  | none => simpa using hdistinct
  | some q => exact (List.nodup_cons.mp hdistinct).2

theorem Fresh.taken (h : Fresh s) (hs : s.supply=some q :: supply) :
    Fresh { s with supply := supply, tables := q::s.tables } := by
  refine ⟨(h.rest hs).page,(h.rest hs).distinct,fun p hp hmem => ?_⟩
  obtain rfl | hmem := List.mem_cons.mp hmem
  · have hdistinct := h.distinct
    rw [hs] at hdistinct
    exact (List.nodup_cons.mp hdistinct).1 (List.mem_filterMap.mpr ⟨_,hp,rfl⟩)
  · exact (h.rest hs).unused p hp hmem

end Fresh

/-- Every page of the page table has its place, and no two entries lead to one page. -/
structure Tabled (s : Ram) (root : Nat) (place : Nat → Option (List Index)) : Prop where
  fresh : Fresh s
  root : place root=some []
  own : ∀ {p path}, place p=some path → p∈s.tables
  page : ∀ {p path}, place p=some path → p%pgsize=0 ∧ p < 2 ^ 64
  link : ∀ {p path}, place p=some path → path.length < 2 → ∀ i,
    valid (s.word (slot p i))=true → place (pte2pa (s.word (slot p i)))=some (path++[i])

namespace Tabled
variable {s s' : Ram} {root p q : Nat} {place : Nat → Option (List Index)} {path : List Index}

structure Grown (s s' : Ram) (root : Nat) (place place' : Nat → Option (List Index)) : Prop where
  tabled : Tabled s' root place'
  places : ∀ {p path}, place p=some path → place' p=some path
  same : ∀ va < maxva, translate s' root va=translate s root va
  old : ∀ {p path is q}, place p=some path → path.length+is.length ≤ 2 →
    PageWords.descend s.word p is=some q → PageWords.descend s'.word p is=some q

theorem Grown.trans {s₁ s₂ s₃ : Ram} {place₁ place₂ place₃ : Nat → Option (List Index)}
    (h : Grown s₁ s₂ root place₁ place₂) (h' : Grown s₂ s₃ root place₂ place₃) :
    Grown s₁ s₃ root place₁ place₃ :=
  ⟨h'.tabled,fun hp => h'.places (h.places hp),
    fun va hva => (h'.same va hva).trans (h.same va hva),
    fun hp hlen hq => h'.old (h.places hp) hlen (h.old hp hlen hq)⟩

def linked (s : Ram) (p : Nat) (i : Index) (q : Nat) : Ram :=
  Ram.store { s.fill q fun _ => 0 with tables := q :: s.tables } (slot p i) (pa2pte q ||| pteV)

theorem linked_link (s : Ram) (p : Nat) (i : Index) (q : Nat) :
    (linked s p i q).word (slot p i)=pa2pte q ||| pteV := Function.update_self ..

variable (h : Tabled s root place)
include h

theorem descend {is : List Index} (hp : place p=some path)
    (hlen : path.length+is.length≤2) (hq : PageWords.descend s.word p is=some q) :
    place q=some (path++is) := by
  induction is generalizing p path with
  | nil =>
    cases hq
    simpa using hp
  | cons i is ih =>
    rw [PageWords.descend] at hq
    split at hq
    · rename_i hv
      simp only [List.length_cons] at hlen
      have := ih (h.link hp (by omega) i hv) (by simp; omega) hq
      simpa using this
    · cases hq

theorem descend_congr {word : Nat → Nat} {is : List Index}
    (hword : ∀ p path, place p=some path → path.length<2 → ∀ i,
      word (slot p i)=s.word (slot p i)) (hp : place p=some path) (hlen : path.length+is.length≤2) :
    PageWords.descend word p is=PageWords.descend s.word p is := by
  induction is generalizing p path with
  | nil => rfl
  | cons i is ih =>
    simp only [List.length_cons] at hlen
    rw [PageWords.descend,PageWords.descend,hword p path hp (by omega) i]
    split
    · rename_i hv
      exact ih (h.link hp (by omega) i hv) (by simp; omega)
    · rfl

theorem Grown.refl : Grown s s root place place :=
  ⟨h,fun hp => hp,fun _ _ => rfl,fun _ _ hq => hq⟩

theorem frame (hword : ∀ p path, place p=some path → ∀ i, s'.word (slot p i)=s.word (slot p i))
    (hfresh : Fresh s') (htables : s'.tables=s.tables) : Grown s s' root place place := by
  have hdescend : ∀ {p path is}, place p=some path → path.length+is.length≤2 →
      PageWords.descend s'.word p is=PageWords.descend s.word p is :=
    h.descend_congr fun p path hp _ i => hword p path hp i
  refine ⟨⟨hfresh,h.root,fun hp => htables ▸ h.own hp,h.page,fun hp hlen i => ?_⟩,
    fun hp => hp,fun va hva => ?_,fun hp hlen hq => (hdescend hp hlen).trans hq⟩
  · rw [hword _ _ hp i]
    exact h.link hp hlen i
  · rw [translate_eq s' root hva,translate_eq s root hva,hdescend h.root (by simp)]
    cases hd : PageWords.descend s.word root [px 2 va, px 1 va] with
    | none => rfl
    | some q => simp [hword q _ (h.descend h.root (by simp) hd)]

theorem fill {v : Nat → Nat} (hq : q%pgsize=0)
    (hnot : q∉s.tables) : Grown s (s.fill q v) root place place := by
  refine h.frame (fun p path hp i => ?_) ⟨h.fresh.page,h.fresh.distinct,h.fresh.unused⟩ rfl
  refine if_neg fun hin => ?_
  obtain rfl := (slot_mem (h.page hp).1 hq).mp hin
  exact hnot (h.own hp)

theorem store {va : Nat} (hq : PageWords.descend s.word root [px 2 va, px 1 va]=some q) (v : Nat) :
    Tabled (s.store (slot q (px 0 va)) v) root place ∧ ∀ vb < maxva,
      translate (s.store (slot q (px 0 va)) v) root vb =
        if Vm.path vb=Vm.path va then entry v else translate s root vb := by
  have hplace := h.descend h.root (by simp) hq
  have hword : ∀ p path, place p=some path → path.length<2 → ∀ i,
      (s.store (slot q (px 0 va)) v).word (slot p i)=s.word (slot p i) := by
    intro p path hp hlen i
    refine Function.update_of_ne (fun heq => ?_) _ _
    obtain ⟨rfl,-⟩ := slot_inj (h.page hp).1 (h.page hplace).1 heq
    rw [hp] at hplace
    cases hplace
    simp at hlen
  refine ⟨⟨⟨h.fresh.page,h.fresh.distinct,h.fresh.unused⟩,h.root,h.own,h.page,
    fun hp hlen i => ?_⟩,fun vb hvb => ?_⟩
  · rw [hword _ _ hp hlen i]
    exact h.link hp hlen i
  · rw [translate_eq _ root hvb,translate_eq s root hvb,h.descend_congr hword h.root (by simp)]
    by_cases hpath : Vm.path vb=Vm.path va
    · obtain ⟨h2,h1,h0⟩ : px 2 vb=px 2 va ∧ px 1 vb=px 1 va ∧ px 0 vb=px 0 va := by
        simpa [Vm.path] using hpath
      rw [if_pos hpath,h2,h1,h0,hq]
      exact congrArg entry (Function.update_self ..)
    · rw [if_neg hpath]
      cases hd : PageWords.descend s.word root [px 2 vb, px 1 vb] with
      | none => rfl
      | some t =>
        have ht := h.descend h.root (by simp) hd
        refine congrArg entry (Function.update_of_ne (fun heq => hpath ?_) _ _)
        -- one entry for both: then the tables are one, and with it the places
        obtain ⟨rfl,h0⟩ := slot_inj (h.page ht).1 (h.page hplace).1 heq
        obtain ⟨h2,h1⟩ : px 2 vb=px 2 va ∧ px 1 vb=px 1 va := by
          simpa using ht.symm.trans hplace
        simp [Vm.path,h2,h1,h0]

section Linked
variable {i : Index} (hp : place p=some path)
include hp

theorem linked_new (hq : q∉s.tables)
    (halign : q%pgsize=0) (j : Index) : (linked s p i q).word (slot q j)=0 := by
  have hne : slot q j≠slot p i := by
    intro heq
    obtain ⟨rfl,-⟩ := slot_inj halign (h.page hp).1 heq
    exact hq (h.own hp)
  refine (Function.update_of_ne hne _ _).trans (if_pos ?_)
  exact (slot_mem halign halign).mpr rfl

theorem linked_old (hq : q∉s.tables)
    (halign : q%pgsize=0) {t : Nat} {path' : List Index} (ht : place t=some path') {j : Index}
    (hne : ¬ (t=p ∧ j=i)) : (linked s p i q).word (slot t j)=s.word (slot t j) := by
  have hslot : slot t j≠slot p i := fun heq => hne (slot_inj (h.page ht).1 (h.page hp).1 heq)
  refine (Function.update_of_ne hslot _ _).trans (if_neg fun hin => ?_)
  obtain rfl := (slot_mem (h.page ht).1 halign).mp hin
  exact hq (h.own ht)

theorem descend_linked (hq : q∉s.tables)
    (halign : q%pgsize=0) (hlt : q<2^64) (hempty : valid (s.word (slot p i))=false) {t : Nat}
    {path' is : List Index} (ht : place t=some path') (hlen : path'.length+is.length≤2) :
    PageWords.descend (linked s p i q).word t is=PageWords.descend s.word t is ∨
      PageWords.descend s.word t is=none ∧ (PageWords.descend (linked s p i q).word t is=none ∨
          PageWords.descend (linked s p i q).word t is=some q) := by
  induction is generalizing t path' with
  | nil => exact .inl rfl
  | cons j is ih =>
    simp only [List.length_cons] at hlen
    by_cases hnew : t=p ∧ j=i
    · obtain ⟨rfl,rfl⟩ := hnew
      refine .inr ⟨by simp [PageWords.descend,hempty],?_⟩
      rw [PageWords.descend,linked_link,if_pos (valid_or _),pte2pa_link halign hlt]
      cases is with
      | nil => exact .inr rfl
      | cons k is =>
        rw [PageWords.descend,linked_new h hp hq halign]
        exact .inl rfl
    · rw [PageWords.descend,PageWords.descend,linked_old h hp hq halign ht hnew]
      split
      · rename_i hv
        exact ih (h.link ht (by omega) j hv) (by simp; omega)
      · exact .inl rfl

theorem grown_linked (hlen : path.length<2)
    (hempty : valid (s.word (slot p i))=false) (hfresh : Fresh { s with tables := q::s.tables })
    (hq : q∉s.tables) (halign : q%pgsize=0) (hlt : q<2^64) :
    Grown s (linked s p i q) root place (Function.update place q (some (path++[i]))) := by
  have hqplace : ∀ t path', place t=some path' → t≠q := by
    rintro t path' ht rfl
    exact hq (h.own ht)
  refine ⟨⟨⟨hfresh.page,hfresh.distinct,hfresh.unused⟩,?_,fun {t path'} ht => ?_,
    fun {t path'} ht => ?_,fun {t path'} ht hlen' j hv => ?_⟩,fun {t path'} ht => ?_,
    fun va hva => ?_,fun {t path' is r} ht hlen' hr => ?_⟩
  · rw [Function.update_of_ne (hqplace root [] h.root)]
    exact h.root
  · by_cases htq : t=q
    · exact List.mem_cons.mpr (.inl htq)
    · rw [Function.update_of_ne htq] at ht
      exact List.mem_cons.mpr (.inr (h.own ht))
  · by_cases htq : t=q
    · exact htq ▸ ⟨halign,hlt⟩
    · rw [Function.update_of_ne htq] at ht
      exact h.page ht
  · by_cases htq : t=q
    · rw [htq,linked_new h hp hq halign] at hv
      cases hv
    · rw [Function.update_of_ne htq] at ht
      by_cases hnew : t=p ∧ j=i
      · obtain ⟨rfl,rfl⟩ := hnew
        obtain rfl := Option.some.inj (hp.symm.trans ht)
        rw [linked_link,pte2pa_link halign hlt,Function.update_self]
      · rw [linked_old h hp hq halign ht hnew] at hv ⊢
        have hchild := h.link ht hlen' j hv
        rw [Function.update_of_ne (hqplace _ _ hchild)]
        exact hchild
  · rw [Function.update_of_ne (hqplace t path' ht)]
    exact ht
  · rw [translate_eq _ root hva,translate_eq s root hva]
    have htwo : ([] : List Index).length+[px 2 va, px 1 va].length ≤ 2 := le_rfl
    obtain heq | ⟨hnone,hnew | hnew⟩ := h.descend_linked hp hq halign hlt hempty h.root htwo
    · rw [heq]
      cases hd : PageWords.descend s.word root [px 2 va, px 1 va] with
      | none => rfl
      | some t =>
        have ht := h.descend h.root (by simp) hd
        refine congrArg entry (linked_old h hp hq halign ht ?_)
        rintro ⟨rfl,-⟩
        rw [hp] at ht
        cases ht
        simp at hlen
    · rw [hnone,hnew]
      rfl
    · rw [hnone,hnew,Option.bind_some,linked_new h hp hq halign]
      rfl
  · obtain heq | ⟨hnone,-⟩ := h.descend_linked hp hq halign hlt hempty ht hlen'
    · exact heq.trans hr
    · rw [hnone] at hr
      cases hr

end Linked

theorem walkLevel {i : Index} {alloc : Bool} {r : Option Nat}
    (hp : place p=some path) (hlen : path.length<2) (hw : PageWords.walkLevel s p i alloc=(s', r)) :
    ∃ place', Grown s s' root place place' ∧
      ∀ q, r=some q → PageWords.descend s'.word p [i]=some q := by
  rw [PageWords.walkLevel] at hw
  cases hv : valid (s.word (slot p i)) with
  | true =>
    rw [hv,if_pos rfl] at hw
    cases hw
    exact ⟨place,.refl h,by simp [PageWords.descend,hv]⟩
  | false =>
    rw [hv,if_neg (by simp)] at hw
    cases alloc with
    | false =>
      cases hw
      exact ⟨place,.refl h,by simp⟩
    | true =>
      rw [if_pos rfl,Ram.newTable,Ram.kalloc] at hw
      cases hs : s.supply with
      | nil =>
        rw [hs] at hw
        cases hw
        exact ⟨place,.refl h,by simp⟩
      | cons x supply =>
        rw [hs] at hw
        -- the answer leaves the supply before the page is linked
        have hrest : Grown s { s with supply := supply } root place place :=
          h.frame (fun _ _ _ _ => rfl) (h.fresh.rest hs) rfl
        cases x with
        | none =>
          cases hw
          exact ⟨place,hrest,by simp⟩
        | some q =>
          cases hw
          obtain ⟨halign,hlt,hnot⟩ := h.fresh.head hs
          have hgrown := hrest.tabled.grown_linked hp hlen hv (h.fresh.taken hs) hnot halign hlt
          refine ⟨_,hrest.trans hgrown,fun t ht => ?_⟩
          cases ht
          change PageWords.descend (linked { s with supply := supply } p i q).word p [i]=some q
          rw [PageWords.descend,linked_link,if_pos (valid_or _),pte2pa_link halign hlt]
          rfl

theorem walk {va : Nat} {alloc : Bool} {r : Option Nat}
    (hw : PageWords.walk s root va alloc=.ok (s', r)) :
    va < maxva ∧ ∃ place', Grown s s' root place place' ∧ ∀ pte, r=some pte →
      ∃ q, pte=slot q (px 0 va) ∧ PageWords.descend s'.word root [px 2 va, px 1 va]=some q := by
  rw [PageWords.walk] at hw
  split at hw
  · cases hw
  rename_i hva
  refine ⟨Nat.not_le.mp hva,?_⟩
  rcases hw₁ : PageWords.walkLevel s root (px 2 va) alloc with ⟨s₁,r₁⟩
  rw [hw₁] at hw
  obtain ⟨place₁,hgrown₁,hfound₁⟩ := h.walkLevel h.root (by simp) hw₁
  cases r₁ with
  | none =>
    cases hw
    exact ⟨place₁,hgrown₁,by simp⟩
  | some t =>
    have ht := hfound₁ t rfl
    rcases hw₂ : PageWords.walkLevel s₁ t (px 1 va) alloc with ⟨s₂,r₂⟩
    dsimp only at hw
    rw [hw₂] at hw
    have htplace := hgrown₁.tabled.descend hgrown₁.tabled.root (by simp) ht
    obtain ⟨place₂,hgrown₂,hfound₂⟩ := hgrown₁.tabled.walkLevel htplace (by simp) hw₂
    cases r₂ with
    | none =>
      cases hw
      exact ⟨place₂,hgrown₁.trans hgrown₂,by simp⟩
    | some q =>
      cases hw
      refine ⟨place₂,hgrown₁.trans hgrown₂,fun pte hpte => ?_⟩
      cases hpte
      have ht₂ := hgrown₂.old hgrown₁.tabled.root (by simp) ht
      exact ⟨q,rfl,descend_append ht₂ (hfound₂ q rfl)⟩

end Tabled

theorem page_eq_of_path {va vb : Nat} (ha : va < maxva) (hb : vb < maxva)
    (h : Vm.path va=Vm.path vb) : va/pgsize=vb/pgsize := by
  simp only [Vm.path,px,Prod.mk.injEq,Fin.ext_iff,Fin.ofNat] at h
  rw [maxva_eq] at ha hb
  rw [pgsize_eq]
  omega

theorem path_eq_iff {va vb : Nat} (ha : va < maxva) (hb : vb < maxva) (hva : va%pgsize=0)
    (hvb : vb%pgsize=0) : Vm.path va=Vm.path vb ↔ va=vb := by
  refine ⟨fun h => ?_,fun h => h ▸ rfl⟩
  have := page_eq_of_path ha hb h
  rw [pgsize_eq] at *
  omega

def Sound (s : Ram) (root : Nat) : Prop := ∃ place, Tabled s root place

section Calls
variable {s s' : Ram} {root : Nat}

theorem valid_entry {w : Nat} (h : valid w=true) : entry w=some w := if_pos h

theorem entry_leafPte (pa perm : Nat) : entry (leafPte pa perm)=some (leafPte pa perm) :=
  valid_entry (valid_or _)

theorem Sound.mappagesFrom {perm last a pa n : Nat} {ok : Bool} (h : Sound s root)
    (ha : a%pgsize=0) (hlast : last%pgsize=0)
    (hm : mappagesFrom root perm last s a pa n=.ok (s', ok)) :
    Sound s' root ∧ (ok=true → pa<2^64 → a ≤ last ∧ last < maxva ∧
      ∀ vb < maxva, vb%pgsize=0 → translate s' root vb =
        if a ≤ vb ∧ vb ≤ last then some (leafPte ((pa+(vb-a))%2^64) perm)
        else translate s root vb) := by
  induction n generalizing s a pa with
  | zero => cases hm
  | succ n ih =>
    obtain ⟨place,h⟩ := h
    rw [PageWords.mappagesFrom] at hm
    split at hm
    · cases hm
    · rename_i s₁ hw
      cases hm
      obtain ⟨-,place₁,hgrown,-⟩ := h.walk hw
      exact ⟨⟨place₁,hgrown.tabled⟩,by simp⟩
    rename_i s₁ pte hw
    obtain ⟨hva,place₁,hgrown,hfound⟩ := h.walk hw
    obtain ⟨q,rfl,hq⟩ := hfound pte rfl
    split at hm
    · cases hm
    obtain ⟨hstored,htrans⟩ := hgrown.tabled.store hq (leafPte pa perm)
    have hone : ∀ vb < maxva, vb%pgsize=0 →
        translate (s₁.store (slot q (px 0 a)) (leafPte pa perm)) root vb =
          if vb=a then some (leafPte pa perm) else translate s root vb := by
      intro vb hvb halign
      rw [htrans vb hvb,hgrown.same vb hvb,entry_leafPte]
      simp only [path_eq_iff hvb hva halign ha]
    split at hm
    · rename_i heq
      cases hm
      subst heq
      refine ⟨⟨place₁,hstored⟩,fun _ hpa => ⟨le_rfl,hva,fun vb hvb halign => ?_⟩⟩
      rw [hone vb hvb halign]
      by_cases hv : vb=a
      · subst hv
        rw [if_pos rfl,if_pos ⟨le_rfl,le_rfl⟩,Nat.sub_self,Nat.add_zero,Nat.mod_eq_of_lt hpa]
      · rw [if_neg hv,if_neg (by omega)]
    · rename_i hne
      have hnext : add64 a pgsize=a+pgsize := by
        rw [maxva_eq] at hva
        exact Nat.mod_eq_of_lt (by rw [pgsize_eq]; omega)
      rw [hnext] at hm
      obtain ⟨hsound,hrest⟩ := ih ⟨place₁,hstored⟩ (by rw [pgsize_eq] at *; omega) hm
      refine ⟨hsound,fun hok hpa => ?_⟩
      obtain ⟨hle,hmax,hall⟩ := hrest hok (Nat.mod_lt _ (by decide))
      refine ⟨by omega,hmax,fun vb hvb halign => ?_⟩
      rw [hall vb hvb halign,hone vb hvb halign]
      rw [pgsize_eq] at *
      by_cases hv : vb=a
      · subst hv
        rw [if_neg (by omega),if_pos rfl,if_pos (by omega),Nat.sub_self,Nat.add_zero,
          Nat.mod_eq_of_lt hpa]
      · rw [if_neg hv]
        by_cases hin : a ≤ vb ∧ vb ≤ last
        · have hpage : (add64 pa 4096+(vb-(a+4096)))%2^64 =
              (pa+(vb-a))%2^64 := by
            rw [add64]
            omega
          rw [if_pos (by omega),if_pos hin,hpage]
        · rw [if_neg (by omega),if_neg hin]

theorem Sound.uvmunmapFrom {a n : Nat} {doFree : Bool} {junk : Nat → Nat} (h : Sound s root)
    (ha : a%pgsize=0)
    (hspare : doFree=true → ∀ i < n, ∀ pte∈translate s root (a+i*pgsize), pte2pa pte∉s.tables)
    (hu : uvmunmapFrom root doFree junk s a n=.ok s') :
    Sound s' root ∧ (∀ i < n, (translate s root (a+i*pgsize)).isSome) ∧
      ∀ vb < maxva, vb%pgsize=0 → translate s' root vb =
        if a ≤ vb ∧ vb < a+n*pgsize then none else translate s root vb := by
  induction n generalizing s a with
  | zero =>
    cases hu
    refine ⟨h,by simp,fun vb hvb halign => ?_⟩
    rw [if_neg (by omega)]
  | succ n ih =>
    obtain ⟨place,h⟩ := h
    rw [PageWords.uvmunmapFrom] at hu
    split at hu
    · cases hu
    · cases hu
    rename_i s₁ pte hw
    obtain ⟨hva,-⟩ := h.walk hw
    rw [walk_noalloc s root hva] at hw
    obtain ⟨rfl,q,hq,rfl⟩ : s=s₁ ∧ ∃ q, descend s.word root [px 2 a, px 1 a]=some q ∧
        slot q (px 0 a)=pte := by
      simpa using hw
    split at hu
    · cases hu
    rename_i hv
    rw [not_not] at hv
    split at hu
    · cases hu
    have hpte : translate s root a=some (s.word (slot q (px 0 a))) := by
      rw [translate_eq s root hva,hq,Option.bind_some,valid_entry hv]
    split at hu
    · cases hu
    rename_i s₂ hfree
    -- the page that is freed is none of the table's
    obtain ⟨hgrown,htables⟩ : Tabled.Grown s s₂ root place place ∧ s₂.tables=s.tables := by
      rw [Ram.kfreeIf] at hfree
      split at hfree
      · rename_i hdo
        rw [Ram.kfree] at hfree
        split at hfree
        · cases hfree
        rename_i hok
        cases hfree
        have halign := not_not.mp fun hbad => hok (.inl hbad)
        have hspared := hspare hdo 0 (Nat.succ_pos n) _ (by simpa using hpte)
        exact ⟨h.fill halign hspared,Ram.fill_tables ..⟩
      · cases hfree
        exact ⟨.refl h,rfl⟩
    obtain ⟨hstored,htrans⟩ := hgrown.tabled.store (hgrown.old h.root (by simp) hq) 0
    have hone : ∀ vb < maxva, vb%pgsize=0 → translate (s₂.store (slot q (px 0 a)) 0) root vb =
          if vb=a then none else translate s root vb := by
      intro vb hvb halign
      rw [htrans vb hvb,hgrown.same vb hvb]
      simp only [path_eq_iff hvb hva halign ha]
      rfl
    have hlater : ∀ i, a+pgsize+i*pgsize=a+(i+1)*pgsize := by
      intro i
      rw [pgsize_eq]
      omega
    have hother : ∀ i, a+pgsize+i*pgsize < maxva →
        translate (s₂.store (slot q (px 0 a)) 0) root (a+pgsize+i*pgsize) =
          translate s root (a+(i+1)*pgsize) := by
      intro i hi
      rw [hone _ hi (by rw [pgsize_eq] at *; omega),if_neg (by rw [pgsize_eq]; omega),hlater]
    have hrest : doFree=true → ∀ i < n,
        ∀ pte∈translate (s₂.store (slot q (px 0 a)) 0) root (a+pgsize+i*pgsize),
          pte2pa pte∉(s₂.store (slot q (px 0 a)) 0).tables := by
      intro hdo i hi pte hsome
      rw [hother i (translate_lt hsome)] at hsome
      change pte2pa pte∉s₂.tables
      rw [htables]
      exact hspare hdo (i+1) (by omega) pte hsome
    obtain ⟨hsound,hmapped,hall⟩ := ih ⟨place,hstored⟩ (by rw [pgsize_eq] at *; omega) hrest hu
    refine ⟨hsound,fun i hi => ?_,fun vb hvb halign => ?_⟩
    · cases i with
      | zero => simp [hpte]
      | succ i =>
        have hi' := hmapped i (by omega)
        obtain ⟨pte,hsome⟩ := Option.isSome_iff_exists.mp hi'
        rwa [hother i (translate_lt hsome)] at hi'
    · rw [hall vb hvb halign,hone vb hvb halign]
      rw [pgsize_eq] at *
      by_cases hv : vb=a
      · rw [if_neg (by omega),if_pos hv,if_pos (by omega)]
      · rw [if_neg hv]
        by_cases hin : a ≤ vb ∧ vb < a+(n+1)*4096
        · rw [if_pos (by omega),if_pos hin]
        · rw [if_neg (by omega),if_neg hin]

theorem Sound.mappages {va size pa perm : Nat} {ok : Bool} (h : Sound s root)
    (hm : mappages s root va size pa perm=.ok (s', ok)) :
    Sound s' root ∧ (ok=true → pa<2^64 → pgrounddown (add64 va (size-1)) < maxva ∧
      ∀ vb < maxva, vb%pgsize=0 → translate s' root vb =
        if pgrounddown va ≤ vb ∧ vb ≤ pgrounddown (add64 va (size-1)) then
          some (leafPte ((pa+(vb-pgrounddown va))%2^64) perm)
        else translate s root vb) := by
  rw [PageWords.mappages] at hm
  split at hm
  · cases hm
  obtain ⟨hsound,hok⟩ := h.mappagesFrom (Nat.mul_mod_left _ _) (Nat.mul_mod_left _ _) hm
  exact ⟨hsound,fun h hpa => (hok h hpa).2⟩

theorem Sound.uvmunmap {va n : Nat} {doFree : Bool} {junk : Nat → Nat} (h : Sound s root)
    (hspare : SparesTables root s (.uvmunmap va n doFree junk))
    (hu : uvmunmap s root va n doFree junk=.ok s') :
    Sound s' root ∧ (va+n*pgsize<2^64 → (∀ i < n, (translate s root (va+i*pgsize)).isSome) ∧
      ∀ vb < maxva, vb%pgsize=0 → translate s' root vb =
        if va ≤ vb ∧ vb < va+n*pgsize then none else translate s root vb) := by
  rw [PageWords.uvmunmap] at hu
  split at hu
  · cases hu
  rename_i halign
  have hle : (add64 va (n*pgsize)-va)/pgsize ≤ n := by
    have hmod : add64 va (n*pgsize) ≤ va+n*pgsize := Nat.mod_le _ _
    rw [pgsize_eq] at *
    omega
  obtain ⟨hsound,hall⟩ := h.uvmunmapFrom (not_not.mp halign)
    (fun hdo i hi => hspare hdo i (lt_of_lt_of_le hi hle)) hu
  refine ⟨hsound,fun hlt => ?_⟩
  have hrounds : (add64 va (n*pgsize)-va)/pgsize=n := by
    rw [add64,Nat.mod_eq_of_lt hlt,pgsize_eq]
    omega
  rwa [hrounds] at hall

theorem Sound.step {c : Call} (h : Sound s root) (hspare : SparesTables root s c)
    (hs : step root s c=some s') : Sound s' root := by
  cases c with
  | mappages va size pa perm =>
    rw [PageWords.step] at hs
    split at hs
    · rename_i hm
      cases hs
      exact (h.mappages hm).1
    · cases hs
  | uvmunmap va n doFree junk =>
    rw [PageWords.step] at hs
    split at hs
    · rename_i hu
      cases hs
      exact (h.uvmunmap hspare hu).1
    · cases hs

theorem Fresh.uvmcreate (h : Fresh s) (hc : uvmcreate s=(s', some root)) : Sound s' root := by
  rw [PageWords.uvmcreate,Ram.newTable,Ram.kalloc] at hc
  cases hs : s.supply with
  | nil => simp [hs] at hc
  | cons x supply =>
    cases x with
    | none => simp [hs] at hc
    | some p =>
      rw [hs] at hc
      cases hc
      obtain ⟨halign,hlt,-⟩ := h.head hs
      have hfresh := h.taken hs
      refine ⟨fun q => if q=root then some [] else none,
        ⟨hfresh.page,hfresh.distinct,hfresh.unused⟩,if_pos rfl,
        fun {q path} hq => ?_,fun {q path} hq => ?_,fun {q path} hq hlen i hv => ?_⟩
      all_goals obtain ⟨rfl,rfl⟩ : q=root ∧ []=path := by simpa using hq
      · exact List.mem_cons_self
      · exact ⟨halign,hlt⟩
      · have hzero : (s.fill q fun _ => 0).word (slot q i)=0 :=
          if_pos ((slot_mem halign halign).mpr rfl)
        change valid ((s.fill q fun _ => 0).word (slot q i))=true at hv
        rw [hzero] at hv
        cases hv

end Calls

theorem mappagesFrom_bound {root perm last a pa n : Nat} {s : Ram} (k : Nat)
    (h : maxva ≤ a+n*pgsize) :
    mappagesFrom root perm last s a pa (n+k)=mappagesFrom root perm last s a pa n := by
  induction n generalizing s a pa with
  | zero =>
    have hwalk : walk s root a true=.error .walk := if_pos (by simpa using h)
    cases k with
    | zero => rfl
    | succ k =>
      simp only [mappagesFrom,hwalk]
  | succ n ih =>
    rw [Nat.succ_add,mappagesFrom,mappagesFrom]
    by_cases hva : a ≥ maxva
    · rw [show walk s root a true=.error .walk from if_pos hva]
    · have hnext : add64 a pgsize=a+pgsize := by
        rw [maxva_eq] at hva
        exact Nat.mod_eq_of_lt (by rw [pgsize_eq]; omega)
      rw [hnext]
      have hmore : ∀ s pa, mappagesFrom root perm last s (a+pgsize) pa (n+k) =
          mappagesFrom root perm last s (a+pgsize) pa n :=
        fun s pa => ih (by rw [pgsize_eq] at *; omega)
      simp only [hmore]

def smallRam : Ram :=
  ⟨0x80021000,fun _ => 7,[some 0x87fff000, some 0x87ffe000, some 0x87ffd000, none,
    some 0x87ffc000],[]⟩

def smallCalls : List Call :=
  [.mappages 100 4097 0x87ff8000 22, .uvmunmap 4096 1 true fun _ => 0x0101010101010101,
    .mappages 0x200000 4096 0x87ff7000 22]

def smallTable : Ram := (uvmcreate smallRam).1

def smallEnd : Ram := (run (step 0x87fff000) smallCalls smallTable).get (by decide +kernel)

end Xv6.PageWords
