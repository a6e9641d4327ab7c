import QuackOS.Ext4.DirChecksum
import QuackOS.Ext4.Residents

/-!
# The names a deletion takes away

A deletion joins the first record of the name to the record before it, or marks it free where it
is the first of the directory.  A lookup looks at names only, so a record marked free is still
found, and so is a second record of the name.

* `DirFormatted` — the bytes of a directory as the format has them;
* `numberOf` — the inode number a directory has under a name;
* `Vanishes`, `deleted_spec` — **which names a deletion takes away**, and that it keeps the others.
-/

namespace QuackOS.Ext4

open Buffer

variable {rs : List DirRecord} {name : Name} {l l' l'' : List (BitVec 8)}

/-- The bytes of a directory as the format has them: records in blocks of 4096 bytes, of which
the last leaves room for the checksum. -/
structure DirFormatted (l : List (BitVec 8)) (rs : List DirRecord) : Prop where
  bytes : l = contents rs
  blocks : ∃ blocks : List (List DirRecord), rs = blocks.flatten ∧
    ∀ b ∈ blocks, (contents b).length = 4096
  reserved : Reserved rs

theorem DirFormatted.small (h : DirFormatted l rs) : ∀ r ∈ rs, r.bytes.length ≤ 4096 := by
  obtain ⟨blocks, rfl, hblocks⟩ := h.blocks
  exact fun r hr => length_le_of_mem_flatten hblocks hr

/-- The inode number that a directory has under a name. -/
def numberOf (l : List (BitVec 8)) (name : Name) : Option (Option ℕ) :=
  (DirContent.find l name).map (Option.map fun e => e.inodeNum.toNat)

theorem numberOf_eq_foundAs (l : List (BitVec 8)) (name : Name) :
    numberOf l name = (foundAs l name).map (Option.map fun p => p.1.toNat) := by
  rw [numberOf, foundAs, Option.map_map]
  congr 1
  funext o
  cases o <;> rfl

/-- **The names a deletion takes away**: one record has the name, and it is not the first. -/
def Vanishes (rs : List DirRecord) (name : Name) : Prop :=
  (∀ r ∈ rs.head?, r.name ≠ name) ∧ (rs.filter fun r => r.name = name).length ≤ 1

/-- **A deletion** keeps the length and the other names, and takes its own away where that
goes. -/
theorem deleted_spec {ino : Ext4Inode} {seed generation : UInt32} (hform : DirFormatted l rs)
    (hdelete : DirContent.deleteEntry l name = some (some l'))
    (hcsum : ino.setDirblockCsum seed generation l' = some l'') :
    l''.length = l.length ∧ (∀ other, other ≠ name → numberOf l'' other = numberOf l other) ∧
      (numberOf l'' name = some none ↔ Vanishes rs name) := by
  rw [hform.bytes] at hdelete ⊢
  obtain ⟨rs', rfl, hlen, hres⟩ :=
    edited_deleteEntry hform.reserved (mergeable_of_small hform.small) hdelete
  obtain ⟨rs'', rfl, hentries⟩ := setDirblockCsum_contents hres hcsum
  have hnumber : ∀ other, numberOf (contents rs'') other = numberOf (contents rs') other := by
    intro other
    rw [numberOf, numberOf, find_congr hentries]
  refine ⟨(length_contents_congr hentries).trans hlen, ?_⟩
  simp only [hnumber]
  rcases deleteEntry_contents hform.small with ⟨-, hnone⟩ |
    ⟨r, after, dead, rfl, hname, hentry, -, hdone⟩ |
    ⟨before, q, r, after, merged, rfl, hbefore, hname, hmerged, hdone⟩
  · rw [hnone] at hdelete
    cases hdelete
  · -- the first record is only marked free
    rw [hdone, Option.some.injEq, Option.some.injEq] at hdelete
    rw [← hdelete]
    have hdead : dead.name = name := by
      rw [← hname, DirRecord.name, DirRecord.name, hentry]
      rfl
    refine ⟨fun other hother => ?_, ?_⟩
    · rw [numberOf_eq_foundAs, numberOf_eq_foundAs,
        foundAs_cons_of_ne (by rw [hdead]; exact hother.symm),
        foundAs_cons_of_ne (by rw [hname]; exact hother.symm)]
    · refine iff_of_false (fun hnone => ?_) fun hvanishes => hvanishes.1 r rfl hname
      have hfirst := @foundAs_of_first [] after dead name (by simp) hdead
      rw [List.nil_append] at hfirst
      rw [numberOf_eq_foundAs, hfirst] at hnone
      cases hnone
  · rw [hdone, Option.some.injEq, Option.some.injEq] at hdelete
    rw [← hdelete]
    have hmname : merged.name = q.name := by
      rw [DirRecord.name, DirRecord.name, hmerged.entry]
      rfl
    have hmfound : merged.found = q.found := by
      rw [DirRecord.found, DirRecord.found, hmerged.entry]
    refine ⟨fun other hother => ?_, ?_⟩
    · have hsplit : before ++ q :: r :: after = (before ++ [q]) ++ r :: after := by simp
      have hskip : foundAs (contents ((before ++ [q]) ++ r :: after)) other =
          foundAs (contents ((before ++ [q]) ++ after)) other :=
        foundAs_skip (by rw [hname]; exact hother.symm)
      rw [numberOf_eq_foundAs, numberOf_eq_foundAs, foundAs_congr hmname hmfound, hsplit, hskip,
        List.append_assoc, List.singleton_append]
    · have hq : ∀ b ∈ before ++ [merged], b.name ≠ name := by
        intro b hb
        rcases List.mem_append.mp hb with hb | hb
        · exact hbefore b (List.mem_append_left _ hb)
        · rw [List.mem_singleton.mp hb, hmname]
          exact hbefore q (by simp)
      have hfiltered : ((before ++ q :: r :: after).filter fun x => x.name = name) =
          r :: after.filter fun x => x.name = name := by
        have hnone : (before ++ [q]).filter (fun x => x.name = name) = [] :=
          List.filter_eq_nil_iff.mpr (by simpa using hbefore)
        have hsplit : before ++ q :: r :: after = (before ++ [q]) ++ r :: after := by simp
        rw [hsplit, List.filter_append, hnone, List.nil_append,
          List.filter_cons_of_pos (by simpa using hname)]
      have hhead : ∀ x ∈ (before ++ q :: r :: after).head?, x.name ≠ name := by
        intro x hx
        cases before with
        | nil =>
          cases hx
          exact hbefore _ (by simp)
        | cons b before =>
          cases hx
          exact hbefore _ (by simp)
      have hsplit' : before ++ merged :: after = (before ++ [merged]) ++ after := by simp
      rw [hsplit', numberOf_eq_foundAs, foundAs_append hq, Vanishes, hfiltered, List.length_cons]
      rw [show ((foundAs (contents after) name).map (Option.map fun p => p.1.toNat) = some none ↔
        foundAs (contents after) name = some none) from ?_, foundAs_eq_none]
      · constructor
        · intro hafter
          refine ⟨hhead, ?_⟩
          rw [List.filter_eq_nil_iff.mpr (by simpa using hafter)]
          rfl
        · rintro ⟨-, hone⟩ a ha han
          have hmem : a ∈ after.filter fun x => x.name = name :=
            List.mem_filter.mpr ⟨ha, by simpa using han⟩
          have := List.length_pos_of_mem hmem
          omega
      · rw [Option.map_eq_some_iff]
        constructor
        · rintro ⟨o, ho, hnone⟩
          rw [ho, Option.map_eq_none_iff.mp hnone]
        · intro hnone
          exact ⟨none, hnone, rfl⟩

end QuackOS.Ext4
