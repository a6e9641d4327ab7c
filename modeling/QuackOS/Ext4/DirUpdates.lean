import QuackOS.Ext4.DirEdits

/-!
# What a change does to the names

A directory is made of blocks of 4096 bytes, each of which is a run of records of its own.
Adding a name should make it found, deleting it should make it not found, and neither should
touch another name or let a record run from one block into the next.

* `BlockTiled` — every block is a run of records;
* `DirUpdate.Lawful` — what adding or deleting a name should do;
* `DirUpdate.Clear` — when the code does it;
* `lawful_iff` — **the one holds exactly when the other does.**
-/

namespace QuackOS.Ext4

/-- Every block of 4096 bytes is a run of records. -/
def BlockTiled (content : List (BitVec 8)) : Prop :=
  ∃ blocks : List (List DirRecord), content = contents blocks.flatten ∧
    ∀ b ∈ blocks, (contents b).length = 4096

/-- What `find` says about a name: the inode number and the type. -/
def foundAs (content : List (BitVec 8)) (name : Name) : Option (Option (UInt32 × UInt8)) :=
  (DirContent.find content name).map (Option.map fun e => (e.inodeNum, e.fileType))

/-- A record in use has this name. -/
def LiveName (rs : List DirRecord) (name : Name) : Prop := ∃ r ∈ rs, r.live = true ∧ r.name = name

/-- A change of a directory. -/
inductive DirUpdate
  | add (name : Name) (inodeNum : UInt32) (fileType : UInt8)
  | delete (name : Name)

namespace DirUpdate

def name : DirUpdate → Name
  | add name _ _ => name
  | delete name => name

/-- The change succeeds, with this directory as the result. -/
def Returns (content content' : List (BitVec 8)) : DirUpdate → Prop
  | add name inodeNum fileType => DirContent.addEntry content name inodeNum fileType = some (.ok content')
  | delete name => DirContent.deleteEntry content name = some (some content')

/-- What `find` should say about the name afterwards. -/
def expected : DirUpdate → Option (UInt32 × UInt8)
  | add _ inodeNum fileType => some (inodeNum, fileType)
  | delete _ => none

/-- A name has 1 to 255 bytes; one that is added is for an inode, and is not there yet. -/
def Allowed (rs : List DirRecord) (u : DirUpdate) : Prop :=
  1 ≤ (nameBytes u.name).length ∧ (nameBytes u.name).length ≤ 255 ∧
    match u with
    | add name inodeNum _ => inodeNum ≠ 0 ∧ ¬ LiveName rs name
    | delete _ => True

/-- **What a change should do**, if it succeeds: to its own name, to every other name in use, and
to the blocks. -/
def Lawful (rs : List DirRecord) (u : DirUpdate) : Prop :=
  ∀ content', u.Returns (contents rs) content' →
    foundAs content' u.name = some u.expected ∧
      (∀ other, other ≠ u.name → LiveName rs other →
        foundAs content' other = foundAs (contents rs) other) ∧
      BlockTiled content'

/-- When the code does that.  A record that is free still counts for `find`: an added name must
not stand on one in front of its place, and the free record that is used must not be the first
under a name in use.  A deleted record must not start a block, and none behind it may have its
name. -/
def Clear (rs : List DirRecord) : DirUpdate → Prop
  | add name _ _ =>
    let before := rs.takeWhile fun r => !r.takes name
    match rs.dropWhile fun r => !r.takes name with
    | [] => True
    | r :: after => (∀ b ∈ before, b.name ≠ name) ∧
      (r.live = true ∨ r.name = name ∨ (∃ b ∈ before, b.name = r.name) ∨ ¬ LiveName after r.name ∨
        foundAs (contents after) r.name = some (some (0, r.entry.fileType)))
  | delete name =>
    let before := rs.takeWhile fun r => r.name ≠ name
    match rs.dropWhile fun r => r.name ≠ name with
    | [] => True
    | _ :: after => (contents before).length % 4096 ≠ 0 ∧ ∀ a ∈ after, a.name ≠ name

end DirUpdate

/-! ## Blocks -/

section Blocks

variable {blocks : List (List DirRecord)} {before after news : List DirRecord} {q r : DirRecord}

/-- The block a record stands in. -/
theorem exists_block (h : blocks.flatten = before ++ r :: after) :
    ∃ bs x y cs, blocks = bs ++ (x ++ r :: y) :: cs ∧ before = bs.flatten ++ x ∧
      after = y ++ cs.flatten := by
  induction blocks generalizing before with
  | nil => simp at h
  | cons b blocks ih =>
    rw [List.flatten_cons, List.append_eq_append_iff] at h
    rcases h with ⟨z, hz, hrest⟩ | ⟨z, hz, hrest⟩
    · -- behind this block
      obtain ⟨bs, x, y, cs, rfl, rfl, rfl⟩ := ih hrest
      exact ⟨b :: bs, x, y, cs, rfl, by rw [hz, List.flatten_cons, List.append_assoc], rfl⟩
    · cases z with
      | nil =>
        rw [List.append_nil] at hz
        obtain ⟨bs, x, y, cs, rfl, hx, rfl⟩ := @ih [] hrest.symm
        obtain ⟨hbs, rfl⟩ := List.append_eq_nil_iff.mp hx.symm
        exact ⟨b :: bs, [], y, cs, rfl, by rw [List.flatten_cons, hbs, hz]; simp, rfl⟩
      | cons z zs =>
        obtain ⟨rfl, rfl⟩ : r = z ∧ after = zs ++ blocks.flatten := by
          simpa only [List.cons_append, List.cons.injEq] using hrest
        exact ⟨[], before, zs, blocks, by rw [hz]; rfl, rfl, rfl⟩

theorem length_contents_flatten (h : ∀ b ∈ blocks, (contents b).length = 4096) :
    (contents blocks.flatten).length = 4096 * blocks.length := by
  induction blocks with
  | nil => rfl
  | cons b blocks ih =>
    rw [List.flatten_cons, contents_append, List.length_append, h b (by simp),
      ih fun c hc => h c (List.mem_cons_of_mem _ hc), List.length_cons]
    omega

/-- A record is no longer than its block. -/
theorem length_le_of_mem_flatten (h : ∀ b ∈ blocks, (contents b).length = 4096)
    (hr : r ∈ blocks.flatten) : r.bytes.length ≤ 4096 := by
  obtain ⟨before, after, hsplit⟩ := List.append_of_mem hr
  obtain ⟨bs, x, y, cs, rfl, -, -⟩ := exists_block hsplit
  have hb := h (x ++ r :: y) (by simp)
  rw [contents_append, contents_cons, List.length_append, List.length_append] at hb
  omega

/-- A record is exchanged for others that take as many bytes. -/
theorem blockTiled_replace (h : ∀ b ∈ blocks, (contents b).length = 4096)
    (hsplit : blocks.flatten = before ++ r :: after)
    (hlen : (contents news).length = r.bytes.length) :
    BlockTiled (contents (before ++ news ++ after)) := by
  obtain ⟨bs, x, y, cs, rfl, rfl, rfl⟩ := exists_block hsplit
  refine ⟨bs ++ (x ++ news ++ y) :: cs, by simp, fun b hb => ?_⟩
  rcases List.mem_append.mp hb with hb | hb
  · exact h b (by simp [hb])
  · rcases List.mem_cons.mp hb with rfl | hb
    · have hr := h (x ++ r :: y) (by simp)
      simp only [contents_append, contents_cons, List.length_append] at hr ⊢
      omega
    · exact h b (by simp [hb])

/-- A record inside of a block goes to the one in front of it. -/
theorem blockTiled_merged {merged : DirRecord} (h : ∀ b ∈ blocks, (contents b).length = 4096)
    (hsplit : blocks.flatten = before ++ q :: r :: after) (hm : Merged q r merged)
    (hpos : (contents (before ++ [q])).length % 4096 ≠ 0) :
    BlockTiled (contents (before ++ merged :: after)) := by
  have hsplit' : blocks.flatten = (before ++ [q]) ++ r :: after := by simp [hsplit]
  obtain ⟨bs, x, y, cs, rfl, hx, rfl⟩ := exists_block hsplit'
  have hbs : ∀ b ∈ bs, (contents b).length = 4096 := fun b hb => h b (by simp [hb])
  obtain rfl | ⟨x', z, rfl⟩ := x.eq_nil_or_concat
  · -- the record starts its block
    rw [hx, List.append_nil, length_contents_flatten hbs] at hpos
    omega
  · rw [List.concat_eq_append, ← List.append_assoc] at hx
    obtain ⟨rfl, hz⟩ := List.append_inj' hx rfl
    obtain rfl : q = z := by simpa using hz
    refine ⟨bs ++ (x' ++ merged :: y) :: cs, by simp, fun b hb => ?_⟩
    rcases List.mem_append.mp hb with hb | hb
    · exact hbs b hb
    · rcases List.mem_cons.mp hb with rfl | hb
      · have hr := h ((x' ++ [q]) ++ r :: y) (by simp)
        have hlen := hm.length
        simp only [contents_append, contents_cons, contents_nil, List.length_append,
          List.length_nil] at hr ⊢
        omega
      · exact h b (by simp [hb])

/-- **A record that starts a block runs out of the one before** when it goes to the record in
front of it: bytes are records in one way only. -/
theorem not_blockTiled_merged {merged : DirRecord} (hm : Merged q r merged)
    (hpos : (contents (before ++ [q])).length % 4096 = 0) :
    ¬ BlockTiled (contents (before ++ merged :: after)) := by
  rintro ⟨blocks, hcontents, hblocks⟩
  obtain ⟨bs, x, y, cs, rfl, rfl, -⟩ := exists_block (contents_injective hcontents).symm
  have hbs := length_contents_flatten fun b hb => hblocks b (List.mem_append_left _ hb)
  have hb := hblocks (x ++ merged :: y) (by simp)
  have hlen := hm.length
  have hq := q.length_bytes.1
  have hr := r.length_bytes.1
  simp only [contents_append, contents_cons, contents_nil, List.length_append, List.length_nil,
    hbs] at hpos hb
  omega

end Blocks

/-! ## Finding -/

section Finding

variable {before after rs : List DirRecord} {r : DirRecord} {name other : Name}

/-- What is found in a record. -/
def DirRecord.found (r : DirRecord) : UInt32 × UInt8 := (r.entry.inodeNum, r.entry.fileType)

theorem foundAs_contents (rs : List DirRecord) (name : Name) : foundAs (contents rs) name =
    some ((rs.find? fun r => r.name = name).map DirRecord.found) := by
  rw [foundAs, find_contents, Option.map_some, Option.map_map]
  rfl

theorem foundAs_eq_none : foundAs (contents rs) name = some none ↔ ∀ r ∈ rs, r.name ≠ name := by
  simp [foundAs_contents]

/-- The first record with the name decides. -/
theorem foundAs_of_first (hbefore : ∀ b ∈ before, b.name ≠ name) (hr : r.name = name) :
    foundAs (contents (before ++ r :: after)) name = some (some r.found) := by
  have hnone : before.find? (fun r => decide (r.name = name)) = none := by
    simpa using hbefore
  rw [foundAs_contents, List.find?_append, hnone, Option.none_or,
    List.find?_cons_of_pos (by simpa using hr)]
  rfl

/-- What stands in front decides, if it has the name. -/
theorem foundAs_of_mem_before {tail tail' : List DirRecord} (h : ∃ b ∈ before, b.name = name) :
    foundAs (contents (before ++ tail)) name = foundAs (contents (before ++ tail')) name := by
  obtain ⟨b, hb, hname⟩ := h
  obtain ⟨q, hq⟩ := Option.isSome_iff_exists.mp (List.find?_isSome
    (p := fun r : DirRecord => decide (r.name = name)) |>.mpr ⟨b, hb, by simpa using hname⟩)
  rw [foundAs_contents, foundAs_contents, List.find?_append, List.find?_append, hq, Option.some_or,
    Option.some_or]

/-- What stands in front does not count when it has other names. -/
theorem foundAs_append (h : ∀ b ∈ before, b.name ≠ name) (rs : List DirRecord) :
    foundAs (contents (before ++ rs)) name = foundAs (contents rs) name := by
  have hnone : before.find? (fun r => decide (r.name = name)) = none := by
    simpa using h
  rw [foundAs_contents, foundAs_contents, List.find?_append, hnone, Option.none_or]

theorem foundAs_cons_of_ne (h : r.name ≠ name) (rs : List DirRecord) :
    foundAs (contents (r :: rs)) name = foundAs (contents rs) name :=
  @foundAs_append [r] name (by simpa using h) rs

/-- A record of another name does not count. -/
theorem foundAs_skip (h : r.name ≠ name) : foundAs (contents (before ++ r :: after)) name =
    foundAs (contents (before ++ after)) name := by
  by_cases hmem : ∃ b ∈ before, b.name = name
  · exact foundAs_of_mem_before hmem
  · have hne : ∀ b ∈ before, b.name ≠ name := fun b hb hname => hmem ⟨b, hb, hname⟩
    rw [foundAs_append hne, foundAs_append hne, foundAs_cons_of_ne h]

/-- What is found stands in a record. -/
theorem exists_of_foundAs {p : UInt32 × UInt8} (h : foundAs (contents rs) name = some (some p)) :
    ∃ r ∈ rs, r.name = name ∧ r.found = p := by
  rw [foundAs_contents, Option.some.injEq] at h
  obtain ⟨r, hr, rfl⟩ := Option.map_eq_some_iff.mp h
  exact ⟨r, List.mem_of_find?_eq_some hr, by simpa using List.find?_some hr, rfl⟩

/-- Records with the same name and inode in one place are found alike. -/
theorem foundAs_congr {r' : DirRecord} (hname : r'.name = r.name) (hfound : r'.found = r.found) :
    foundAs (contents (before ++ r' :: after)) name = foundAs (contents (before ++ r :: after)) name := by
  have hcons : ∀ rs, (r' :: rs).find? (fun q => decide (q.name = name)) =
      if r.name = name then some r' else rs.find? fun q => decide (q.name = name) := by
    intro rs
    by_cases h : r.name = name
    · rw [if_pos h, List.find?_cons_of_pos (by simpa [hname] using h)]
    · rw [if_neg h, List.find?_cons_of_neg (by simpa [hname] using h)]
  rw [foundAs_contents, foundAs_contents, List.find?_append, List.find?_append, hcons]
  by_cases h : r.name = name
  · rw [if_pos h, List.find?_cons_of_pos (by simpa using h)]
    cases before.find? fun q => decide (q.name = name) with
    | none => simp [hfound]
    | some b => rfl
  · rw [if_neg h, List.find?_cons_of_neg (by simpa using h)]

/-- The records in front of the first one that is looked for, and those from it on. -/
theorem takeWhile_split {p : DirRecord → Bool} (hbefore : ∀ b ∈ before, p b = true)
    (hr : p r = false) : (before ++ r :: after).takeWhile p = before ∧
      (before ++ r :: after).dropWhile p = r :: after := by
  rw [List.takeWhile_append_of_pos hbefore, List.takeWhile_cons_of_neg (by simp [hr]),
    List.append_nil, List.dropWhile_append_of_pos hbefore, List.dropWhile_cons_of_neg (by simp [hr])]
  exact ⟨rfl, rfl⟩

end Finding

/-! ## Adding a name -/

namespace DirUpdate

variable {before after news rs : List DirRecord} {r : DirRecord} {name : Name} {inodeNum : UInt32}
  {fileType : UInt8}

/-- The added name is found, unless a free record in front has it. -/
theorem found_of_placed (hlen : (nameBytes name).length ≤ 255)
    (hfree : ¬ LiveName (before ++ r :: after) name) (hino : inodeNum ≠ 0)
    (hp : Placed name inodeNum fileType r news) :
    foundAs (contents (before ++ news ++ after)) name = some (some (inodeNum, fileType)) ↔
      ∀ b ∈ before, b.name ≠ name := by
  constructor
  · intro h b hb hname
    rw [List.append_assoc, @foundAs_of_mem_before before name (news ++ after) [] ⟨b, hb, hname⟩,
      List.append_nil] at h
    obtain ⟨q, hq, hqname, hfound⟩ := exists_of_foundAs h
    refine hfree ⟨q, List.mem_append_left _ hq, ?_, hqname⟩
    have : q.entry.inodeNum = inodeNum := congrArg Prod.fst hfound
    simpa [DirRecord.live, this] using hino
  · intro hbefore
    cases hp with
    | free new dead entry =>
      rw [List.append_assoc, List.singleton_append, foundAs_of_first hbefore
        (name_of_newEntry hlen entry), DirRecord.found, entry]
      rfl
    | behind old new live same entry length =>
      have hold : old.name ≠ name := by
        intro h
        refine hfree ⟨r, by simp, live, ?_⟩
        rw [← h, DirRecord.name, DirRecord.name, same]
        rfl
      have hsplit : before ++ [old, new] ++ after = (before ++ [old]) ++ new :: after := by simp
      have hbefore' : ∀ b ∈ before ++ [old], b.name ≠ name := by
        intro b hb
        rcases List.mem_append.mp hb with hb | hb
        · exact hbefore b hb
        · rw [List.mem_singleton.mp hb]
          exact hold
      rw [hsplit, foundAs_of_first hbefore' (name_of_newEntry hlen entry), DirRecord.found, entry]
      rfl

/-- Other names are found as before, unless the free record that was used was the first of one
of them. -/
theorem others_of_placed (hlen : (nameBytes name).length ≤ 255)
    (hp : Placed name inodeNum fileType r news) :
    (∀ other, other ≠ name → LiveName (before ++ r :: after) other →
      foundAs (contents (before ++ news ++ after)) other =
        foundAs (contents (before ++ r :: after)) other) ↔
      (r.live = true ∨ r.name = name ∨ (∃ b ∈ before, b.name = r.name) ∨ ¬ LiveName after r.name ∨
        foundAs (contents after) r.name = some (some (0, r.entry.fileType))) := by
  cases hp with
  | free new dead entry =>
    have hnew : new.name = name := name_of_newEntry hlen entry
    have hino : r.entry.inodeNum = 0 := by simpa [DirRecord.live] using dead
    have hfound : r.found = (0, r.entry.fileType) := by rw [DirRecord.found, hino]
    have hskip : ∀ other, other ≠ name → foundAs (contents (before ++ [new] ++ after)) other =
        foundAs (contents (before ++ after)) other := by
      intro other hother
      rw [List.append_assoc, List.singleton_append, foundAs_skip (by rw [hnew]; exact hother.symm)]
    constructor
    · intro h
      by_contra hno
      simp only [not_or, not_exists, not_and, not_not] at hno
      obtain ⟨-, hname, hbefore, hlive, hafter⟩ := hno
      obtain ⟨a, ha, hal, han⟩ := hlive
      have hsame := h r.name hname ⟨a, by simp [ha], hal, han⟩
      rw [hskip _ hname, foundAs_append hbefore, foundAs_of_first hbefore rfl, hfound] at hsame
      exact hafter hsame
    · intro hclear other hother hlive
      rw [hskip other hother]
      by_cases hr : r.name = other
      · by_cases hmem : ∃ b ∈ before, b.name = other
        · exact foundAs_of_mem_before hmem
        · have hne : ∀ b ∈ before, b.name ≠ other := fun b hb hname => hmem ⟨b, hb, hname⟩
          rw [foundAs_append hne, foundAs_of_first hne hr, hfound]
          -- the record in use with this name stands behind
          have hafter : LiveName after other := by
            obtain ⟨a, ha, hal, han⟩ := hlive
            rcases List.mem_append.mp ha with ha | ha
            · exact absurd han (hne a ha)
            · rcases List.mem_cons.mp ha with rfl | ha
              · rw [dead] at hal
                cases hal
              · exact ⟨a, ha, hal, han⟩
          rw [hr] at hclear
          rcases hclear with h | h | h | h | h
          · rw [dead] at h
            cases h
          · exact absurd h hother
          · exact absurd h hmem
          · exact absurd hafter h
          · exact h
      · rw [foundAs_skip hr]
  | behind old new live same entry length =>
    have hnew : new.name = name := name_of_newEntry hlen entry
    have hold : old.name = r.name := by
      rw [DirRecord.name, DirRecord.name, same]
      rfl
    have hfound : old.found = r.found := by
      rw [DirRecord.found, DirRecord.found, same]
    simp only [live, true_or, iff_true]
    intro other hother _
    have hsplit : before ++ [old, new] ++ after = (before ++ [old]) ++ new :: after := by simp
    rw [hsplit, foundAs_skip (by rw [hnew]; exact hother.symm), List.append_assoc,
      List.singleton_append, foundAs_congr hold hfound]

variable {blocks : List (List DirRecord)}

theorem add_lawful_iff (hblocks : ∀ b ∈ blocks, (contents b).length = 4096)
    (hu : (add name inodeNum fileType).Allowed blocks.flatten) :
    (add name inodeNum fileType).Lawful blocks.flatten ↔
      (add name inodeNum fileType).Clear blocks.flatten := by
  have hlen : (nameBytes name).length ≤ 255 := hu.2.1
  obtain ⟨-, -, hino, hfree⟩ := hu
  rcases @addEntry_contents blocks.flatten name inodeNum fileType hlen with ⟨hfull, hadd⟩ |
    ⟨before, r, after, news, hsplit, hbefore, hr, hp, hadd⟩
  · -- no record takes the name
    have hnone : blocks.flatten.dropWhile (fun r => !r.takes name) = [] := by
      rw [List.dropWhile_eq_nil_iff]
      intro r hr
      simp [hfull r hr]
    rw [Clear, hnone]
    refine iff_of_true (fun content' h => ?_) trivial
    rw [Returns, hadd] at h
    cases h
  · obtain ⟨htake, hdrop⟩ := @takeWhile_split before after r (fun r => !r.takes name)
      (fun b hb => by simp [hbefore b hb]) (by simp [hr])
    have htiled := blockTiled_replace hblocks hsplit hp.length
    rw [hsplit] at hfree ⊢
    have hfound := found_of_placed hlen hfree hino hp
    have hothers := @others_of_placed before after news r name inodeNum fileType hlen hp
    rw [Clear, htake, hdrop]
    dsimp only
    rw [← hfound, ← hothers]
    constructor
    · intro h
      obtain ⟨h₁, h₂, -⟩ := h _ (by rw [Returns, ← hsplit]; exact hadd)
      exact ⟨h₁, h₂⟩
    · rintro ⟨h₁, h₂⟩ content' h
      rw [Returns, ← hsplit, hadd] at h
      cases h
      exact ⟨h₁, h₂, htiled⟩

/-! ## Deleting a name -/

theorem delete_lawful_iff (hblocks : ∀ b ∈ blocks, (contents b).length = 4096) :
    (delete name).Lawful blocks.flatten ↔ (delete name).Clear blocks.flatten := by
  rcases @deleteEntry_contents blocks.flatten name (fun r hr => length_le_of_mem_flatten hblocks hr)
    with ⟨hnone, hdelete⟩ | ⟨r, after, dead, hsplit, hr, hdead, -, hdelete⟩ |
      ⟨before, q, r, after, merged, hsplit, hbefore, hr, hm, hdelete⟩
  · -- there is no such name
    have hdrop : blocks.flatten.dropWhile (fun r => decide (r.name ≠ name)) = [] := by
      rw [List.dropWhile_eq_nil_iff]
      intro r hr
      simpa using hnone r hr
    rw [Clear, hdrop]
    refine iff_of_true (fun content' h => ?_) trivial
    rw [Returns, hdelete] at h
    cases h
  · -- the first record keeps its name
    obtain ⟨htake, hdrop⟩ := @takeWhile_split [] after r (fun r => decide (r.name ≠ name))
      (by simp) (by simp [hr])
    rw [List.nil_append] at htake hdrop
    rw [hsplit] at hdelete ⊢
    rw [Clear, htake, hdrop]
    refine iff_of_false (fun h => ?_) (fun h => h.1 rfl)
    obtain ⟨hown, -, -⟩ := h _ hdelete
    have hname : dead.name = name := by
      rw [← hr, DirRecord.name, DirRecord.name, hdead]
      rfl
    exact foundAs_eq_none.mp hown dead (by simp) hname
  · have hsplit' : blocks.flatten = (before ++ [q]) ++ r :: after := by simp [hsplit]
    obtain ⟨htake, hdrop⟩ := @takeWhile_split (before ++ [q]) after r
      (fun r => decide (r.name ≠ name)) (fun b hb => by simpa using hbefore b hb) (by simp [hr])
    have hname : merged.name = q.name := by
      rw [DirRecord.name, DirRecord.name, hm.entry]
      rfl
    have hfound : merged.found = q.found := by
      rw [DirRecord.found, DirRecord.found, hm.entry]
    have hown : foundAs (contents (before ++ merged :: after)) name = some none ↔
        ∀ a ∈ after, a.name ≠ name := by
      rw [foundAs_eq_none, List.forall_mem_append, List.forall_mem_cons, hname]
      rw [List.forall_mem_append, List.forall_mem_singleton] at hbefore
      exact ⟨fun h => h.2.2, fun h => ⟨hbefore.1, hbefore.2, h⟩⟩
    have hothers : ∀ other, other ≠ name → foundAs (contents (before ++ merged :: after)) other =
        foundAs (contents ((before ++ [q]) ++ r :: after)) other := by
      intro other hother
      have hne : r.name ≠ other := by
        rw [hr]
        exact hother.symm
      rw [@foundAs_skip (before ++ [q]) after r other hne, List.append_assoc,
        List.singleton_append, foundAs_congr hname hfound]
    have htiled : BlockTiled (contents (before ++ merged :: after)) ↔
        (contents (before ++ [q])).length % 4096 ≠ 0 :=
      ⟨fun h hpos => not_blockTiled_merged hm hpos h, blockTiled_merged hblocks hsplit hm⟩
    rw [hsplit'] at hdelete ⊢
    rw [Clear, htake, hdrop]
    dsimp only
    rw [← hown, ← htiled]
    constructor
    · intro h
      obtain ⟨h₁, -, h₃⟩ := h _ hdelete
      exact ⟨h₃, h₁⟩
    · rintro ⟨h₃, h₁⟩ content' h
      rw [Returns, hdelete] at h
      cases h
      exact ⟨h₁, fun other hother _ => hothers other hother, h₃⟩

/-- **A change of a directory does what it should** exactly when it is clear. -/
theorem lawful_iff {u : DirUpdate} (hblocks : ∀ b ∈ blocks, (contents b).length = 4096)
    (hu : u.Allowed blocks.flatten) : u.Lawful blocks.flatten ↔ u.Clear blocks.flatten := by
  cases u with
  | add name inodeNum fileType => exact add_lawful_iff hblocks hu
  | delete name => exact delete_lawful_iff hblocks

/-- A record of 12 bytes. -/
def recordA : DirRecord := .written ⟨12, 12, 1, 1, [97]⟩ (List.replicate 3 0) rfl rfl rfl

/-- A record for the rest of a block. -/
def recordB : DirRecord :=
  .written ⟨13, 4084, 1, 1, [98]⟩ (List.replicate 4075 0) rfl rfl (by
    rw [List.length_append, List.length_replicate, length_entryBytes rfl]
    rfl)

theorem lawful_iff_secondRecord : ([[recordA, recordB]].flatten.map DirRecord.name = [['a'], ['b']]) ∧
    ((delete ['b']).Lawful [[recordA, recordB]].flatten ↔
      (delete ['b']).Clear [[recordA, recordB]].flatten) := by
  refine ⟨by decide +kernel, lawful_iff ?_ ⟨by decide, by decide, trivial⟩⟩
  intro b hb
  rw [List.mem_singleton.mp hb, contents_cons, contents_cons, contents_nil, List.append_nil,
    List.length_append, ← recordA.covers, ← recordB.covers]
  rfl

/-- **The first name of a directory is still found** after it was deleted. -/
theorem firstRecord_still_found : ¬ (delete ['a']).Lawful [[recordA, recordB]].flatten := by
  intro h
  have hrun : ((DirContent.deleteEntry (contents [recordA, recordB]) ['a']).bind id).map
      (fun content' => foundAs content' ['a']) = some (some (some (0, 1))) := by
    decide +kernel
  obtain ⟨content', hdelete, hfound⟩ := Option.map_eq_some_iff.mp hrun
  obtain ⟨r, hr, rfl⟩ := Option.bind_eq_some_iff.mp hdelete
  have hown := (h content' hr).1
  rw [show (delete ['a']).name = ['a'] from rfl, hfound] at hown
  cases hown

end DirUpdate

end QuackOS.Ext4
