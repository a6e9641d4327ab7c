import QuackOS.Lib.Errno
import QuackOS.Mm.Mapping

/-!
# The memory system calls of a thread

`sys_map_page`, `sys_mprotect` and `sys_unmap_page` of `native.rs`.  Each works on a borrowed
view of the table in `TTBR0_EL1`.

* `UserTable` — the invariant of a table that a thread changes by these calls: the words of
  the last level are zero or user pages, each on a live frame of its own that is neither a
  table nor one of the frames the kernel keeps for the table;
* `UserOp.userTable` — **every call, and every store of the thread, keeps it**.
-/

namespace QuackOS.Mm

open Radix (reach stop IsTree)

/-! ## The calls -/

/-- The registers and globals that `current_page_table` reads. -/
structure Cpu where
  ttbr0 : ℕ
  /-- `KERNEL_L0_PA`. -/
  kernelL0Pa : ℕ

/-- `current_page_table`. -/
def currentPageTable (cpu : Cpu) : PageTable :=
  if cpu.ttbr0 ≠ 0 then PageTable.fromToken cpu.ttbr0 else PageTable.fromToken cpu.kernelL0Pa

/-- The flags that `sys_map_page` and `sys_mprotect` build from `prot`. -/
def protFlags (prot : ℕ) : PTEFlags :=
  let flags := PTEFlags.empty.insert PTEFlags.V
  let flags := flags.insert PTEFlags.A
  let flags := flags.insert PTEFlags.D
  let flags := flags.insert PTEFlags.U
  let flags := if prot &&& 1 ≠ 0 then flags.insert PTEFlags.R else flags
  let flags := if prot &&& 2 ≠ 0 then flags.insert PTEFlags.W else flags
  if prot &&& 4 ≠ 0 then flags.insert PTEFlags.X else flags

/-- The check the three calls make on their address. -/
def badAddr (vaddr : ℕ) : Bool := vaddr % 4096 ≠ 0 || 0x0000800000000000 ≤ vaddr

/-- Is there a valid leaf descriptor for the page? -/
def isMapped (pt : PageTable) (ph : Phys) (vpn : ℕ) : Bool :=
  (pt.findPte ph vpn).any fun r => Pte.isValid (ph.page r.1 r.2)

/-- `sys_map_page`; the result is what the call returns in `x0`. -/
def sysMapPage (cpu : Cpu) (ph : Phys) (vaddr prot : ℕ) : Option (ℤ × Phys) :=
  if badAddr vaddr then some (-einval, ph)
  else
    let flags := protFlags prot
    let vpn := vaddr / 4096
    let pt := currentPageTable cpu
    if isMapped pt ph vpn then (pt.remap ph vpn flags).map fun ph => (0, ph)
    else
      match allocPage ph with
      | some (some ppn, ph) => (pt.map ph vpn ppn flags).map fun r => (0, r.2)
      | some (none, ph) => some (-enomem, ph)
      | none => none

/-- `sys_unmap_page`. -/
def sysUnmapPage (cpu : Cpu) (ph : Phys) (vaddr : ℕ) : Option (ℤ × Phys) :=
  if badAddr vaddr then some (-einval, ph)
  else
    let pt := currentPageTable cpu
    let vpn := vaddr / 4096
    match pt.findPte ph vpn with
    | some (n, i) =>
      let ppn := Pte.ppn (ph.page n i)
      (pt.unmap ph vpn).bind fun ph => (freePage ph ppn).map fun ph => (0, ph)
    | none => some (-einval, ph)

/-- `sys_mprotect`. -/
def sysMprotect (cpu : Cpu) (ph : Phys) (vaddr prot : ℕ) : Option (ℤ × Phys) :=
  if badAddr vaddr then some (-einval, ph)
  else
    let flags := protFlags prot
    let pt := currentPageTable cpu
    let vpn := vaddr / 4096
    match pt.findPte ph vpn with
    | some _ => (pt.remap ph vpn flags).map fun ph => (0, ph)
    | none => some (-enomem, ph)

/-- A store of the running thread: it goes through when the page is writable at EL0. -/
def userStore (cpu : Cpu) (ph : Phys) (va : ℕ) (w : Word) : Phys :=
  match translate ph (currentPageTable cpu).rootPpn va with
  | some t =>
    if t.desc >>> 6 &&& 0b11 = 0b01 then
      ph.set (t.pa / 4096) (Fin.ofNat 512 (t.pa % 4096 / 8)) w
    else ph
  | none => ph

/-- What a thread does to its address space. -/
inductive UserOp where
  | mapPage (vaddr prot : ℕ)
  | mprotect (vaddr prot : ℕ)
  | unmapPage (vaddr : ℕ)
  | store (va : ℕ) (w : Word)

/-- One step of the thread; `none` when the kernel panics. -/
def UserOp.run (cpu : Cpu) (ph : Phys) : UserOp → Option Phys
  | .mapPage vaddr prot => (sysMapPage cpu ph vaddr prot).map Prod.snd
  | .mprotect vaddr prot => (sysMprotect cpu ph vaddr prot).map Prod.snd
  | .unmapPage vaddr => (sysUnmapPage cpu ph vaddr).map Prod.snd
  | .store va w => some (userStore cpu ph va w)

/-- A sequence of steps. -/
def runUser (cpu : Cpu) (ph : Phys) (ops : List UserOp) : Option Phys :=
  ops.foldlM (UserOp.run cpu) ph

/-! ## The invariant -/

/-- A borrowed view of the tree below a root. -/
def view (root : ℕ) : PageTable := ⟨root, none, false⟩

/-- The frame is a table of the tree. -/
def IsNode (ph : Phys) (root f : ℕ) : Prop :=
  ∃ p, p.length ≤ 3 ∧ reach Pte.child ph.page root p = some f

/-- The frame holds a page that the tree maps. -/
def IsData (ph : Phys) (root f : ℕ) : Prop :=
  ∃ q w, q.length = 4 ∧ leaf ph root q = some (3, w) ∧ Pte.ppn w = f

/-- A table that a thread changes by its system calls, and the frames the kernel keeps for
it. -/
structure UserTable (root : ℕ) (kept : List ℕ) (ph : Phys) : Prop where
  wf : (view root).Wf ph
  kept_live : ∀ t ∈ kept, ph.Live t ∧ ¬ IsNode ph root t ∧ ¬ IsData ph root t
  word : ∀ p n i, p.length = 3 → reach Pte.child ph.page root p = some n →
    ph.page n i = 0 ∨ ∃ f prot, f < 2 ^ 36 ∧ ph.page n i = Pte.new f (protFlags prot)
  data_live : ∀ f, IsData ph root f → ph.Live f ∧ ¬ IsNode ph root f
  data_inj : ∀ q q' w w', q.length = 4 → q'.length = 4 → leaf ph root q = some (3, w) →
    leaf ph root q' = some (3, w') → Pte.ppn w = Pte.ppn w' → q = q'
  block : ∀ q l w, q.length = 4 → leaf ph root q = some (l, w) → l < 3 → w &&& Pte.el0Bit = 0

section Leaf

variable {ph ph' : Phys} {root : ℕ} {q : List Index} {w : Word}

/-- A page mapped on the last level is a word of a table of that level. -/
theorem leaf_three_iff (hq : q.length = 4) : leaf ph root q = some (3, w) ↔
    ∃ p n i, q = p ++ [i] ∧ p.length = 3 ∧ reach Pte.child ph.page root p = some n ∧
      ph.page n i = w ∧ isLeaf 3 w = true := by
  constructor
  · intro h
    obtain ⟨hstop, hleaf⟩ := Option.filter_eq_some_iff.mp h
    obtain ⟨p, i, r, n, rfl, hl, hr, rfl, -⟩ := Radix.stop_eq_some hstop
    simp only [List.length_append, List.length_cons] at hq
    have hrnil : r = [] := List.length_eq_zero_iff.mp (by omega)
    subst hrnil
    exact ⟨p, n, i, rfl, by omega, hr, rfl, hleaf⟩
  · rintro ⟨p, n, i, rfl, hp, hr, rfl, hleaf⟩
    rw [leaf_last hr hp, hleaf, if_pos rfl]

end Leaf

/-! ## Changes that the table does not see -/

/-- The frame is a table, a page or one the kernel keeps. -/
def Used (ph : Phys) (root : ℕ) (kept : List ℕ) (f : ℕ) : Prop :=
  IsNode ph root f ∨ f ∈ kept ∨ IsData ph root f

namespace UserTable

variable {ph ph' : Phys} {root n f : ℕ} {kept : List ℕ} {p q path : List Index} {i : Index}
  {w : Word}

theorem live_of_used (h : UserTable root kept ph) (hu : Used ph root kept f) : ph.Live f := by
  rcases hu with ⟨p, hp, hr⟩ | hk | hd
  · exact h.wf.node_live p f hp hr
  · exact (h.kept_live f hk).1
  · exact (h.data_live f hd).1

section Agree

variable (hpage : ∀ n, IsNode ph root n → ph'.page n = ph.page n)
include hpage

theorem reach_agree (hp : p.length ≤ 4) :
    reach Pte.child ph'.page root p = reach Pte.child ph.page root p :=
  Radix.reach_congr_nodes (d := 3) (fun q m hq hm => hpage m ⟨q, hq, hm⟩) hp

theorem leaf_agree (hq : q.length = 4) : leaf ph' root q = leaf ph root q := by
  rw [leaf, leaf, Radix.stop_congr_nodes (d := 3) (fun q m hq hm => hpage m ⟨q, hq, hm⟩) (by omega)]

theorem isNode_agree : IsNode ph' root f ↔ IsNode ph root f := by
  refine exists_congr fun p => and_congr_right fun hp => ?_
  rw [reach_agree hpage (by omega)]

theorem isData_agree : IsData ph' root f ↔ IsData ph root f := by
  refine exists_congr fun q => exists_congr fun w => and_congr_right fun hq => ?_
  rw [leaf_agree hpage hq]

/-- The invariant is about the tables' words and the frames in use, and nothing else. -/
theorem of_agree (h : UserTable root kept ph) (hok : ph'.Ok)
    (hlive : ∀ f, Used ph root kept f → ph'.Live f) : UserTable root kept ph' := by
  refine ⟨⟨hok, ?_, fun p m hp hm => ?_, (fun _ ht => nomatch ht), (fun _ ht => nomatch ht)⟩,
    fun t ht => ⟨hlive t (Or.inr (Or.inl ht)), ?_, ?_⟩, fun p m j hp hm => ?_, fun f hf => ?_,
    fun q q' w w' hq hq' hw hw' => ?_, fun q l w hq hw => ?_⟩
  · exact h.wf.tree.congr fun q m hq hm => hpage m ⟨q, hq, hm⟩
  · rw [view, reach_agree hpage (by omega)] at hm
    exact hlive m (Or.inl ⟨p, hp, hm⟩)
  · rw [isNode_agree hpage]
    exact (h.kept_live t ht).2.1
  · rw [isData_agree hpage]
    exact (h.kept_live t ht).2.2
  · rw [reach_agree hpage (by omega)] at hm
    rw [hpage m ⟨p, by omega, hm⟩]
    exact h.word p m j hp hm
  · rw [isData_agree hpage] at hf
    rw [isNode_agree hpage]
    exact ⟨hlive f (Or.inr (Or.inr hf)), (h.data_live f hf).2⟩
  · rw [leaf_agree hpage hq] at hw
    rw [leaf_agree hpage hq'] at hw'
    exact h.data_inj q q' w w' hq hq' hw hw'
  · rw [leaf_agree hpage hq] at hw
    exact h.block q l w hq hw

end Agree

theorem weaken (h : UserTable root (f :: kept) ph) : UserTable root kept ph :=
  ⟨h.wf, fun t ht => h.kept_live t (List.mem_cons_of_mem f ht), h.word, h.data_live, h.data_inj,
    h.block⟩

theorem keep (h : UserTable root kept ph) (hl : ph.Live f) (hn : ¬ IsNode ph root f)
    (hd : ¬ IsData ph root f) : UserTable root (f :: kept) ph := by
  refine ⟨h.wf, fun t ht => ?_, h.word, h.data_live, h.data_inj, h.block⟩
  rcases List.mem_cons.mp ht with rfl | ht
  · exact ⟨hl, hn, hd⟩
  · exact h.kept_live t ht

/-- A frame taken from the free list is one more that is kept. -/
theorem pop {rest : List ℕ} (h : UserTable root kept ph) (hfree : ph.free = f :: rest) :
    UserTable root (f :: kept) (ph.pop f rest) := by
  have hf : f ∈ ph.free := by simp [hfree]
  have hnot : ∀ g, Used ph root kept g → g ≠ f := by
    rintro g hu rfl
    exact (h.live_of_used hu).2 hf
  have hpage : ∀ n, IsNode ph root n → (ph.pop f rest).page n = ph.page n := fun n hn =>
    Phys.pop_page_of_ne (hnot n (Or.inl hn))
  refine (h.of_agree hpage (h.wf.ok.pop hfree) fun g hg => (h.live_of_used hg).pop hfree).keep
    (.pop_self h.wf.ok hfree) ?_ ?_
  · rw [isNode_agree hpage]
    exact fun hn => hnot f (Or.inl hn) rfl
  · rw [isData_agree hpage]
    exact fun hd => hnot f (Or.inr (Or.inr hd)) rfl

/-- A live frame that the table does not use may be given back. -/
theorem push (h : UserTable root kept ph) (hf : ph.Live f) (hu : ¬ Used ph root kept f) :
    UserTable root kept (ph.push f) := by
  have hne : ∀ g, Used ph root kept g → g ≠ f := by
    rintro g hg rfl
    exact hu hg
  exact h.of_agree (fun n hn => Phys.push_page_of_ne (hne n (Or.inl hn))) (h.wf.ok.push hf)
    fun g hg => (h.live_of_used hg).push (hne g hg)

/-- Words outside the tables may be written. -/
theorem set_of_not_node (h : UserTable root kept ph) (hn : ¬ IsNode ph root n) :
    UserTable root kept (ph.set n i w) := by
  refine h.of_agree (fun m hm => Phys.set_page_of_ne ?_) h.wf.ok.set fun g hg => h.live_of_used hg
  rintro rfl
  exact hn hm

/-! ## Growing, and writing a leaf -/

theorem grown (h : UserTable root kept ph) (g : Grown (view root) ph path (view root) ph') :
    UserTable root kept ph' := by
  have hnode : ∀ f, IsNode ph' root f → IsNode ph root f ∨ f ∈ ph.free := by
    rintro f ⟨q, hq, hr⟩
    rcases g.node q f hq hr with hr | hfree
    · exact Or.inl ⟨q, hq, hr⟩
    · exact Or.inr hfree
  have hleaf : ∀ q r, q.length = 4 → leaf ph' root q = some r → leaf ph root q = some r := by
    intro q r hq hr
    have := g.leaf q hq
    rw [show (view root).rootPpn = root from rfl, hr] at this
    split at this
    · cases this
    · exact this.symm
  have hdata : ∀ f, IsData ph' root f → IsData ph root f := by
    rintro f ⟨q, w, hq, hw, hf⟩
    exact ⟨q, w, hq, hleaf q _ hq hw, hf⟩
  have hnot : ∀ f, Used ph root kept f → ¬ IsNode ph root f → ¬ IsNode ph' root f := by
    intro f hu hn hn'
    rcases hnode f hn' with hn' | hfree
    · exact hn hn'
    · exact (h.live_of_used hu).2 hfree
  refine ⟨g.wf, fun t ht => ⟨g.ext.live (h.kept_live t ht).1, ?_, ?_⟩, fun p m j hp hm => ?_,
    fun f hf => ⟨g.ext.live (h.data_live f (hdata f hf)).1, ?_⟩,
    fun q q' w w' hq hq' hw hw' => ?_, fun q l w hq hw => ?_⟩
  · exact hnot t (Or.inr (Or.inl ht)) (h.kept_live t ht).2.1
  · exact fun hd => (h.kept_live t ht).2.2 (hdata t hd)
  · rcases g.last p m hp hm with ⟨hm₀, hsame⟩ | hzero
    · rw [hsame]
      exact h.word p m j hp hm₀
    · exact Or.inl (by rw [hzero]; rfl)
  · exact hnot f (Or.inr (Or.inr (hdata f hf))) (h.data_live f (hdata f hf)).2
  · exact h.data_inj q q' w w' hq hq' (hleaf q _ hq hw) (hleaf q' _ hq' hw')
  · exact h.block q l w hq (hleaf q _ hq hw)

section SetLeaf

variable (h : UserTable root kept ph) (hp : reach Pte.child ph.page root p = some n)
  (hl : p.length = 3)
include h hp hl

theorem reach_set (hq : q.length ≤ 3) :
    reach Pte.child (ph.set n i w).page root q = reach Pte.child ph.page root q :=
  Radix.reach_write_leaf h.wf.tree hp hl hq

theorem isNode_set : IsNode (ph.set n i w) root f ↔ IsNode ph root f := by
  refine exists_congr fun q => and_congr_right fun hq => ?_
  rw [h.reach_set hp hl hq]

/-- The pages after a word of the last level was written. -/
theorem leaf_set (hq : q.length = 4) : Mm.leaf (ph.set n i w) root q =
    if q = p ++ [i] then (if isLeaf 3 w then some (3, w) else none) else Mm.leaf ph root q := by
  have hwf : (view root).Wf ph := h.wf
  exact Mm.leaf_set hwf hp hl hq

/-- **Writing a user page** whose frame is in no other use. -/
theorem set_user {prot : ℕ} (hf : f < 2 ^ 36) (hlive : ph.Live f) (hn : ¬ IsNode ph root f)
    (hk : f ∉ kept) (hother : ∀ q w, q.length = 4 → q ≠ p ++ [i] → Mm.leaf ph root q = some (3, w) →
      Pte.ppn w ≠ f) : UserTable root kept (ph.set n i (Pte.new f (protFlags prot))) := by
  have hleaf : ∀ q r, q.length = 4 →
      Mm.leaf (ph.set n i (Pte.new f (protFlags prot))) root q = some r →
      (q = p ++ [i] ∧ r = (3, Pte.new f (protFlags prot))) ∨
        (q ≠ p ++ [i] ∧ Mm.leaf ph root q = some r) := by
    intro q r hq hr
    rw [h.leaf_set hp hl hq] at hr
    split at hr
    · rw [isLeaf_new, if_pos rfl] at hr
      exact Or.inl ⟨by assumption, (Option.some.inj hr).symm⟩
    · exact Or.inr ⟨by assumption, hr⟩
  have hdata : ∀ g, IsData (ph.set n i (Pte.new f (protFlags prot))) root g →
      g = f ∨ IsData ph root g := by
    rintro g ⟨q, w, hq, hw, rfl⟩
    rcases hleaf q _ hq hw with ⟨-, heq⟩ | ⟨-, hw⟩
    · cases heq
      exact Or.inl (Pte.ppn_new hf)
    · exact Or.inr ⟨q, w, hq, hw, rfl⟩
  refine ⟨wf_set_leaf h.wf hp hl, fun t ht => ⟨(h.kept_live t ht).1, ?_, fun hd => ?_⟩,
    fun p' m j hp' hm => ?_, fun g hg => ?_, fun q q' w w' hq hq' hw hw' heq => ?_,
    fun q l w hq hw hl3 => ?_⟩
  · rw [h.isNode_set hp hl]
    exact (h.kept_live t ht).2.1
  · rcases hdata t hd with rfl | hd
    · exact hk ht
    · exact (h.kept_live t ht).2.2 hd
  · rw [h.reach_set hp hl (by omega)] at hm
    by_cases hnj : m = n ∧ j = i
    · obtain ⟨rfl, rfl⟩ := hnj
      exact Or.inr ⟨f, prot, hf, Radix.write_self⟩
    · rw [Phys.set_page_apply_of_ne hnj]
      exact h.word p' m j hp' hm
  · rw [h.isNode_set hp hl]
    rcases hdata g hg with rfl | hg
    · exact ⟨hlive, hn⟩
    · exact h.data_live g hg
  · rcases hleaf q _ hq hw with ⟨hq₁, he⟩ | ⟨hne, hw₁⟩ <;>
      rcases hleaf q' _ hq' hw' with ⟨hq₂, he'⟩ | ⟨hne', hw₂⟩
    · rw [hq₁, hq₂]
    · obtain ⟨-, rfl⟩ := Prod.mk.inj he
      rw [Pte.ppn_new hf] at heq
      exact absurd heq.symm (hother q' w' hq' hne' hw₂)
    · obtain ⟨-, rfl⟩ := Prod.mk.inj he'
      rw [Pte.ppn_new hf] at heq
      exact absurd heq (hother q w hq hne hw₁)
    · exact h.data_inj q q' w w' hq hq' hw₁ hw₂ heq
  · rcases hleaf q _ hq hw with ⟨-, he⟩ | ⟨-, hw₁⟩
    · obtain ⟨rfl, -⟩ := Prod.mk.inj he
      omega
    · exact h.block q l w hq hw₁ hl3

/-- Clearing a word of the last level. -/
theorem set_zero : UserTable root kept (ph.set n i 0) := by
  have hleaf : ∀ q r, q.length = 4 → Mm.leaf (ph.set n i 0) root q = some r →
      q ≠ p ++ [i] ∧ Mm.leaf ph root q = some r := by
    intro q r hq hr
    rw [h.leaf_set hp hl hq] at hr
    split at hr
    · cases hr
    · exact ⟨by assumption, hr⟩
  have hdata : ∀ g, IsData (ph.set n i 0) root g → IsData ph root g := by
    rintro g ⟨q, w, hq, hw, rfl⟩
    exact ⟨q, w, hq, (hleaf q _ hq hw).2, rfl⟩
  refine ⟨wf_set_leaf h.wf hp hl, fun t ht => ⟨(h.kept_live t ht).1, ?_, fun hd => ?_⟩,
    fun p' m j hp' hm => ?_, fun g hg => ?_, fun q q' w w' hq hq' hw hw' => ?_,
    fun q l w hq hw => ?_⟩
  · rw [h.isNode_set hp hl]
    exact (h.kept_live t ht).2.1
  · exact (h.kept_live t ht).2.2 (hdata t hd)
  · rw [h.reach_set hp hl (by omega)] at hm
    by_cases hnj : m = n ∧ j = i
    · obtain ⟨rfl, rfl⟩ := hnj
      exact Or.inl Radix.write_self
    · rw [Phys.set_page_apply_of_ne hnj]
      exact h.word p' m j hp' hm
  · rw [h.isNode_set hp hl]
    exact h.data_live g (hdata g hg)
  · exact h.data_inj q q' w w' hq hq' (hleaf q _ hq hw).2 (hleaf q' _ hq' hw').2
  · exact h.block q l w hq (hleaf q _ hq hw).2

/-- The frame of a page that was cleared is no page any more. -/
theorem not_isData_set_zero (hw : Mm.leaf ph root (p ++ [i]) = some (3, w)) :
    ¬ IsData (ph.set n i 0) root (Pte.ppn w) := by
  rintro ⟨q, w', hq, hw', heq⟩
  rw [h.leaf_set hp hl hq] at hw'
  split at hw'
  · cases hw'
  · rename_i hne
    exact hne (h.data_inj q (p ++ [i]) w' w hq (by simp [hl]) hw' hw heq)

end SetLeaf

end UserTable

/-! ## One step of the thread -/

/-- What a step may do: the invariant holds, tables stay tables, the frames the kernel keeps
are not written, and only pages are freed. -/
structure UserStep (root : ℕ) (kept : List ℕ) (ph ph' : Phys) : Prop where
  table : UserTable root kept ph'
  base : ph'.trackBase = ph.trackBase
  node_mono : ∀ f, IsNode ph root f → IsNode ph' root f
  kept_page : ∀ t ∈ kept, ph'.page t = ph.page t
  taken : ph.taken <:+ ph'.taken
  given : ∀ f ∈ ph'.given, f ∈ ph.given ∨ IsData ph root f

section Steps

variable {ph ph' : Phys} {root n f vpn prot : ℕ} {kept : List ℕ} {p q : List Index} {i : Index}

theorem UserStep.refl (h : UserTable root kept ph) : UserStep root kept ph ph :=
  ⟨h, rfl, fun _ hf => hf, fun _ _ => rfl, List.suffix_refl _, fun _ hf => Or.inl hf⟩

/-- A valid word of the last level is a page of the thread. -/
theorem UserTable.word_valid (h : UserTable root kept ph)
    (hp : reach Pte.child ph.page root p = some n) (hl : p.length = 3)
    (hv : Pte.isValid (ph.page n i) = true) :
    ∃ f prot, f < 2 ^ 36 ∧ ph.page n i = Pte.new f (protFlags prot) ∧
      Mm.leaf ph root (p ++ [i]) = some (3, Pte.new f (protFlags prot)) := by
  rcases h.word p n i hl hp with hz | ⟨f, prot, hf, hw⟩
  · rw [hz] at hv
    cases hv
  · refine ⟨f, prot, hf, hw, ?_⟩
    rw [leaf_last hp hl, hw, isLeaf_new, if_pos rfl]

theorem remap_step (h : UserTable root kept ph)
    (hm : (view root).remap ph vpn (protFlags prot) = some ph') : UserStep root kept ph ph' := by
  obtain ⟨p, n, i, -, hl, hp, hv, rfl⟩ := remap_spec hm
  obtain ⟨f, prot₀, hf, hw, hleaf⟩ := h.word_valid hp hl hv
  have hnode : IsNode ph root n := ⟨p, by omega, hp⟩
  have hlen : (p ++ [i]).length = 4 := by simp [hl]
  have hdata : IsData ph root f := ⟨p ++ [i], _, hlen, hleaf, Pte.ppn_new hf⟩
  have hk : f ∉ kept := fun hk => (h.kept_live f hk).2.2 hdata
  rw [hw, Pte.ppn_new hf]
  refine ⟨h.set_user hp hl hf (h.data_live f hdata).1 (h.data_live f hdata).2 hk ?_, rfl, fun g hg => ?_,
    fun t ht => Phys.set_page_of_ne ?_, List.suffix_refl _, fun g hg => Or.inl hg⟩
  · intro q w hq hne hqw heq
    exact hne (h.data_inj q (p ++ [i]) w _ hq hlen hqw hleaf (heq.trans (Pte.ppn_new hf).symm))
  · exact (h.isNode_set hp hl).mpr hg
  · rintro rfl
    exact (h.kept_live _ ht).2.1 hnode

/-- A fresh frame mapped for a page. -/
theorem map_step {rest : List ℕ} {pt' : PageTable} (h : UserTable root kept ph)
    (hfree : ph.free = f :: rest)
    (hm : (view root).map (ph.pop f rest) vpn f (protFlags prot) = some (pt', ph')) :
    UserStep root kept ph ph' := by
  have h₀ : UserTable root (f :: kept) (ph.pop f rest) := h.pop hfree
  obtain ⟨ph₁, p, n, i, hg, -, hl, hp, rfl⟩ := map_spec h₀.wf hm
  obtain rfl : pt' = view root := hg.view rfl
  have h₁ : UserTable root (f :: kept) ph₁ := h₀.grown hg
  obtain ⟨hflive, hfnode, hfdata⟩ := h₁.kept_live f (List.mem_cons_self ..)
  have hnode : IsNode ph₁ root n := ⟨p, by omega, hp⟩
  have hf36 : f < 2 ^ 36 := h₁.wf.ok.lt_of_live hflive
  have hk : f ∉ kept := by
    intro hk
    exact (h.kept_live f hk).1.2 (by simp [hfree])
  refine ⟨h₁.weaken.set_user hp hl hf36 hflive hfnode hk ?_, ?_, fun g hg' => ?_, fun t ht => ?_, ?_,
    fun g hg' => ?_⟩
  · rintro q w hq - hqw heq
    exact hfdata ⟨q, w, hq, hqw, heq⟩
  · exact hg.ext.base
  · rw [h₁.isNode_set hp hl]
    obtain ⟨q, hq, hr⟩ := hg'
    refine ⟨q, hq, hg.node_mono q g hq ?_⟩
    rw [Radix.reach_congr_nodes (pop_agrees h.wf hfree) (by omega)]
    exact hr
  · have htf : t ≠ f := (h.kept_live t ht).1.ne_head hfree
    have htn : t ≠ n := by
      rintro rfl
      exact (h₁.kept_live t (List.mem_cons_of_mem f ht)).2.1 hnode
    obtain ⟨htlive, htnode, -⟩ := h₀.kept_live t (List.mem_cons_of_mem f ht)
    rw [Phys.set_page_of_ne htn, hg.page t htlive nofun fun q hq hr => htnode ⟨q, hq, hr⟩,
      Phys.pop_page_of_ne htf]
  · exact (List.suffix_cons f ph.taken).trans hg.ext.taken
  · rw [show (ph₁.set n i _).given = ph₁.given from rfl, hg.ext.given] at hg'
    exact Or.inl hg'

/-- What `sys_unmap_page` does when the page is mapped: it clears the word and frees the frame,
which is in no other use. -/
theorem unmap_freed {ph₁ : Phys} (h : UserTable root kept ph)
    (hf : (view root).findPte ph vpn = some (n, i)) (hm : (view root).unmap ph vpn = some ph₁)
    (hfr : freePage ph₁ (Pte.ppn (ph.page n i)) = some ph') :
    ∃ p f, p.length = 3 ∧ reach Pte.child ph.page root p = some n ∧ IsData ph root f ∧
      ph.Live f ∧ ¬ Used (ph.set n i 0) root kept f ∧ ph₁ = ph.set n i 0 ∧
      ph' = (ph.set n i 0).push f := by
  obtain ⟨p, n', i', hix, hl, hp, hv, rfl⟩ := unmap_spec hm
  obtain ⟨p', hix', -, hp'⟩ := findPte_spec hf
  obtain ⟨rfl, hi⟩ := List.append_inj' (hix.symm.trans hix') rfl
  cases hi
  rw [hp] at hp'
  cases hp'
  obtain ⟨f, prot, hf36, hw, hleaf⟩ := h.word_valid hp hl hv
  have hppn : Pte.ppn (ph.page n i) = f := by rw [hw, Pte.ppn_new hf36]
  rw [hppn] at hfr
  have hdata : IsData ph root f := ⟨p ++ [i], _, by simp [hl], hleaf, Pte.ppn_new hf36⟩
  obtain ⟨hflive, hfnode⟩ := h.data_live f hdata
  have hk : f ∉ kept := fun hk => (h.kept_live f hk).2.2 hdata
  have hunused : ¬ Used (ph.set n i 0) root kept f := by
    rintro (hn | hk' | hd)
    · exact hfnode ((h.isNode_set hp hl).mp hn)
    · exact hk hk'
    · have := h.not_isData_set_zero hp hl hleaf
      rw [Pte.ppn_new hf36] at this
      exact this hd
  rw [freePage_of_live (h.set_zero hp hl).wf.ok hflive] at hfr
  cases hfr
  exact ⟨p, f, hl, hp, hdata, hflive, hunused, rfl, rfl⟩

/-- Giving the frame back does not touch the tables. -/
theorem push_page_of_node (hu : ¬ Used ph root kept f) {m : ℕ} (hm : IsNode ph root m) :
    (ph.push f).page m = ph.page m := by
  apply Phys.push_page_of_ne
  rintro rfl
  exact hu (Or.inl hm)

theorem unmap_step {ph₁ : Phys} (h : UserTable root kept ph)
    (hf : (view root).findPte ph vpn = some (n, i)) (hm : (view root).unmap ph vpn = some ph₁)
    (hfr : freePage ph₁ (Pte.ppn (ph.page n i)) = some ph') : UserStep root kept ph ph' := by
  obtain ⟨p, f, hl, hp, hdata, hlive, hunused, -, rfl⟩ := unmap_freed h hf hm hfr
  have hnode : IsNode ph root n := ⟨p, by omega, hp⟩
  refine ⟨(h.set_zero hp hl).push hlive hunused, rfl, fun g hg => ?_, fun t ht => ?_,
    List.suffix_refl _, fun g hg => ?_⟩
  · rw [UserTable.isNode_agree fun m hm => push_page_of_node hunused hm, h.isNode_set hp hl]
    exact hg
  · have htf : t ≠ f := by
      rintro rfl
      exact hunused (Or.inr (Or.inl ht))
    have htn : t ≠ n := by
      rintro rfl
      exact (h.kept_live t ht).2.1 hnode
    rw [Phys.push_page_of_ne htf, Phys.set_page_of_ne htn]
  · rcases List.mem_cons.mp hg with rfl | hg
    · exact Or.inr hdata
    · exact Or.inl hg

/-- A descriptor that is writable at EL0 is accessible there. -/
theorem el0_of_ap {w : Word} (h : w >>> 6 &&& 0b11 = 0b01) : w &&& Pte.el0Bit ≠ 0 := by
  intro hz
  have h6 : w.getLsbD 6 = true := by
    have := congrArg (fun x => x.getLsbD 0) h
    simpa using this
  have h6' : (w &&& Pte.el0Bit).getLsbD 6 = false := by
    rw [hz]
    rfl
  rw [BitVec.getLsbD_and, h6] at h6'
  cases h6'

/-- A store goes to a page of the thread, or nowhere: blocks are not accessible at EL0. -/
theorem userStore_cases {cpu : Cpu} {va : ℕ} {w : Word} (h : UserTable root kept ph)
    (hcpu : currentPageTable cpu = view root) :
    userStore cpu ph va w = ph ∨
      ∃ f i, IsData ph root f ∧ userStore cpu ph va w = ph.set f i w := by
  unfold userStore
  split
  case h_2 => exact Or.inl rfl
  case h_1 t ht =>
  split
  case isFalse => exact Or.inl rfl
  case isTrue hap =>
  rw [hcpu, translate] at ht
  split at ht
  case isFalse => cases ht
  obtain ⟨⟨l, d⟩, hleaf, rfl⟩ := Option.map_eq_some_iff.mp ht
  have hl3 : l = 3 := by
    obtain ⟨-, hl⟩ := Option.filter_eq_some_iff.mp hleaf
    by_contra hne
    have hlt : l < 3 := by
      simp only [isLeaf, hne, if_false, Bool.and_eq_true, Bool.or_eq_true, decide_eq_true_eq] at hl
      omega
    exact el0_of_ap hap (h.block _ l d rfl hleaf hlt)
  subst hl3
  have hpa : (Pte.ppn d * 4096 / 2 ^ leafShift 3 * 2 ^ leafShift 3 + va % 2 ^ leafShift 3) / 4096 =
      Pte.ppn d := by
    simp only [leafShift]
    omega
  rw [hpa]
  exact Or.inr ⟨Pte.ppn d, _, ⟨_, d, rfl, hleaf, rfl⟩, rfl⟩

/-- A store does not reach the tables. -/
theorem leaf_userStore {cpu : Cpu} {va : ℕ} {w : Word} (h : UserTable root kept ph)
    (hcpu : currentPageTable cpu = view root) (hq : q.length = 4) :
    leaf (userStore cpu ph va w) root q = leaf ph root q := by
  rcases userStore_cases h hcpu with heq | ⟨f, i, hdata, heq⟩
  · rw [heq]
  · rw [heq]
    refine UserTable.leaf_agree (fun m hm => Phys.set_page_of_ne ?_) hq
    rintro rfl
    exact (h.data_live _ hdata).2 hm

theorem store_step {cpu : Cpu} {va : ℕ} {w : Word} (h : UserTable root kept ph)
    (hcpu : currentPageTable cpu = view root) : UserStep root kept ph (userStore cpu ph va w) := by
  rcases userStore_cases h hcpu with heq | ⟨f, i, hdata, heq⟩
  · rw [heq]
    exact .refl h
  rw [heq]
  have hnode := (h.data_live f hdata).2
  have hpage : ∀ m, IsNode ph root m → (ph.set f i w).page m = ph.page m := by
    intro m hm
    apply Phys.set_page_of_ne
    rintro rfl
    exact hnode hm
  refine ⟨h.set_of_not_node hnode, rfl, fun g hg => ?_, fun t ht => Phys.set_page_of_ne ?_,
    List.suffix_refl _, fun g hg => Or.inl hg⟩
  · exact (UserTable.isNode_agree hpage).mpr hg
  · rintro rfl
    exact (h.kept_live _ ht).2.2 hdata

/-- **Every call of a thread, and every store, keeps the invariant of its table.** -/
theorem UserOp.step {cpu : Cpu} {op : UserOp} (h : UserTable root kept ph)
    (hcpu : currentPageTable cpu = view root) (hrun : op.run cpu ph = some ph') :
    UserStep root kept ph ph' := by
  cases op with
  | mapPage vaddr prot =>
    obtain ⟨⟨r, ph₁⟩, hs, rfl⟩ := Option.map_eq_some_iff.mp hrun
    simp only [sysMapPage, hcpu] at hs
    split at hs
    · cases hs
      exact .refl h
    split at hs
    · obtain ⟨ph₂, hm, heq⟩ := Option.map_eq_some_iff.mp hs
      cases heq
      exact remap_step h hm
    · rcases allocPage_cases h.wf.ok with ⟨-, ha⟩ | ⟨f, rest, hfree, ha⟩
      · simp only [ha] at hs
        cases hs
        exact .refl h
      · simp only [ha] at hs
        obtain ⟨⟨pt', ph₂⟩, hm, heq⟩ := Option.map_eq_some_iff.mp hs
        cases heq
        exact map_step h hfree hm
  | mprotect vaddr prot =>
    obtain ⟨⟨r, ph₁⟩, hs, rfl⟩ := Option.map_eq_some_iff.mp hrun
    simp only [sysMprotect, hcpu] at hs
    split at hs
    · cases hs
      exact .refl h
    split at hs
    · obtain ⟨ph₂, hm, heq⟩ := Option.map_eq_some_iff.mp hs
      cases heq
      exact remap_step h hm
    · cases hs
      exact .refl h
  | unmapPage vaddr =>
    obtain ⟨⟨r, ph₁⟩, hs, rfl⟩ := Option.map_eq_some_iff.mp hrun
    simp only [sysUnmapPage, hcpu] at hs
    split at hs
    · cases hs
      exact .refl h
    split at hs
    case h_1 n i hf =>
      obtain ⟨ph₂, hm, hfr⟩ := Option.bind_eq_some_iff.mp hs
      obtain ⟨ph₃, hfr, heq⟩ := Option.map_eq_some_iff.mp hfr
      cases heq
      exact unmap_step h hf hm hfr
    case h_2 =>
      cases hs
      exact .refl h
  | store va w =>
    cases hrun
    exact store_step h hcpu

theorem currentPageTable_token {cpu : Cpu} {pt : PageTable} (h : cpu.ttbr0 = pt.token)
    (h0 : pt.rootPpn ≠ 0) : currentPageTable cpu = view pt.rootPpn := by
  have hne : cpu.ttbr0 ≠ 0 := by
    rw [h, PageTable.token]
    omega
  rw [currentPageTable, if_pos hne, h, PageTable.token, PageTable.fromToken, view,
    Nat.mul_div_cancel _ (by omega)]

end Steps

end QuackOS.Mm
