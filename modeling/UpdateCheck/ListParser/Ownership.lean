import UpdateCheck.Base.Ownership
import UpdateCheck.ListParser.Walk

/-!
# The blocks of a walk

An item owns two blocks, its link and its versions, and the list owns the array. `parse_item`
releases the blocks of an item that is invalid, and what it had acquired where `malloc` fails;
`parser_free_list` releases the blocks of the items within the length and the array. A
`std::bad_alloc` out of `parse_version` is not met by any of these: the item stays outside the
length, and its blocks are never released.

The copies in `parse_version` ask for memory only where they are of a revision that is too long or
of a severity that is a string, an array or an object, so only for a version that is rejected. A walk
ends at the first request that is refused, so whether its blocks are all released depends on who made
that request: `walkList_balanced_iff`.
-/

namespace UpdateCheck.ListParser

open Ledger

/-! ## The requests -/

/-- Who makes a request. -/
inductive Requester where
  | walkList
  | parseItem
  | parseVersion
  deriving DecidableEq

/-- The requests for the versions of an item: a valid version makes none, and the first that is
invalid is the last. -/
def versionsRequests : List Json → List Requester
  | [] => []
  | v :: vers =>
    if ValidVersion v then versionsRequests vers
    else List.replicate (checkedCopies v) .parseVersion

/-- The requests for an item: behind the check, its name and its link are copied, and the block of the
versions and that of the link are allocated. -/
def itemRequests (item : Json) : List Requester :=
  List.replicate (itemCopies item) .parseItem ++
    if CheckedItem item then
      List.replicate (stringRequests (stringField item NAME)) .parseItem ++
        (List.replicate (stringRequests (stringField item LINK)) .parseItem ++
          .parseItem :: .parseItem :: versionsRequests (versionsField item))
    else []

def itemsRequests : List Json → List Requester
  | [] => []
  | item :: items => itemRequests item ++ if ValidItem item then itemsRequests items else []

/-- The requests of `walk_list`, in their order, as far as none of them is refused. -/
def walkRequests (root : Json) : List Requester :=
  if HasSoftware root then .walkList :: itemsRequests (softwareField root) else []

/-! ## The blocks -/

/-- The blocks of an item. -/
def itemBlocks (sw : Software) : List Nat :=
  (sw.link.map Block.id).toList ++ (sw.versions.map Block.id).toList

/-- The blocks that are released with a list. -/
def listBlocks (list : SoftwareList) : List Nat :=
  list.visible.flatMap itemBlocks ++ (list.items.map Block.id).toList

/-- The two blocks of an item. -/
structure Owns (link versions : Nat) (sw : Software) : Prop where
  link : sw.link.map Block.id = some link
  versions : sw.versions.map Block.id = some versions

theorem Owns.itemBlocks_eq {link versions : Nat} {sw : Software} (h : Owns link versions sw) :
    itemBlocks sw = [link, versions] := by
  rw [itemBlocks, h.link, h.versions]
  rfl

theorem Owns.setVersion {link versions : Nat} {sw : Software} (h : Owns link versions sw)
    (idx : Nat) (lv : ListVersion) : Owns link versions (setVersion idx lv sw) := by
  refine ⟨h.link, ?_⟩
  rw [ListParser.setVersion, Option.map_map]
  exact h.versions

/-- How an item ends that is not stored: it is invalid, and has released what it acquired; or a
request was refused. A request of `parse_version` leaves two blocks behind. -/
def Fails (φ : Prop) (tags : List Requester) (r : Option Requester) (live : List Nat) (e : Raised)
    (L : Ledger) : Prop :=
  (e = .invalidItemError ∧ φ ∧ Due tags r live L) ∨
    (e = .badAlloc ∧ r = some .parseItem ∧ Owes live L) ∨
    (e = .badAlloc ∧ r = some .parseVersion ∧
      ∃ link versions, Owes (link :: versions :: live) L)

theorem Fails.imp {φ ψ : Prop} {tags : List Requester} {r : Option Requester} {live : List Nat}
    {e : Raised} {L : Ledger} (h : Fails φ tags r live e L) (hφ : φ → ψ) :
    Fails ψ tags r live e L := by
  rcases h with ⟨he, hp, hdue⟩ | h
  · exact Or.inl ⟨he, hφ hp, hdue⟩
  · exact Or.inr h

variable {r : Option Requester} {live : List Nat}

/-! ## One item -/

/-- The loop over the versions keeps the blocks of the item, or releases them at an invalid version,
or leaves them behind. -/
theorem parseVersions_owns {link versions : Nat} {tags : List Requester} (idx : Nat)
    (vers : List Json) :
    Triple (Within (Due (versionsRequests vers ++ tags) r (link :: versions :: live))
        (Owns link versions))
      (parseVersions idx vers)
      (fun _ sw L => (∀ v ∈ vers, ValidVersion v) ∧
        Within (Due tags r (link :: versions :: live)) (Owns link versions) sw L)
      (fun e _ L => Fails (¬ ∀ v ∈ vers, ValidVersion v) tags r live e L) := by
  induction vers generalizing idx with
  | nil =>
    refine Triple.modifyObj fun sw L h => ⟨?_, ⟨h.1.link, h.1.versions⟩, h.2⟩
    intro v hv
    cases hv
  | cons v vers ih =>
    rw [versionsRequests]
    by_cases hv : ValidVersion v
    · rw [if_pos hv]
      refine (parseVersion_copies hv).bind_attempt ?_
      refine Triple.bind_modifyObj (K := Owns link versions) (fun sw h => h.setVersion _ _) ?_
      refine (ih (idx + 1)).conseq (fun _ _ => id) ?_ ?_
      · intro _ sw L h
        exact ⟨List.forall_mem_cons.mpr ⟨hv, h.1⟩, h.2⟩
      · intro e sw L h
        exact h.imp fun hnot hall => hnot (List.forall_mem_cons.mp hall).2
    · rw [if_neg hv]
      refine (parseVersion_refusesWith hv).bind_attempt_due ?_ fun hr => ?_
      · refine Triple.bind_readObj fun sw howns => ?_
        obtain ⟨b, hb, rfl⟩ := Option.map_eq_some_iff.mp howns.link
        obtain ⟨c, hc, rfl⟩ := Option.map_eq_some_iff.mp howns.versions
        rw [hb, hc]
        refine Triple.bind_free_due (Triple.bind_free_due ?_)
        refine Triple.bind_modifyObj (K := fun _ => True) (fun _ _ => trivial) ?_
        refine Triple.throw fun _ L h => Or.inl ⟨rfl, fun hall => hv ?_, h.2⟩
        exact (List.forall_mem_cons.mp hall).1
      · exact Triple.throw fun sw L h => Or.inr (Or.inr ⟨rfl, hr, link, versions, h.2⟩)

/-- `parse_item` on any slot. -/
theorem parseItem_owns {tags : List Requester} (item : Json) :
    Triple (Within (Due (itemRequests item ++ tags) r live) fun _ => True) (parseItem item)
      (fun _ sw L => ValidItem item ∧
        ∃ link versions, Owns link versions sw ∧ Due tags r (link :: versions :: live) L)
      (fun e _ L => Fails (¬ ValidItem item) tags r live e L) := by
  have hrefused : r = some .parseItem → ∀ (sw : Software) (L : Ledger), True → Owes live L →
      Fails (¬ ValidItem item) tags r live .badAlloc L := fun hr _ L _ howes =>
    Or.inr (Or.inl ⟨rfl, hr, howes⟩)
  rw [itemRequests, List.append_assoc]
  by_cases hc : CheckedItem item
  · have hname := (hasField_iff.mp hc.2.1).1
    have hlink := (hasField_iff.mp hc.2.2.1).1
    have hvers := (hasField_iff.mp hc.2.2.2).1
    have hnameString := (isStringWith_field.mp (hasField_iff.mp hc.2.1).2).1
    have hlinkString := (isStringWith_field.mp (hasField_iff.mp hc.2.2.1).2).1
    rw [if_pos hc, parseItem, entry_eq (by simp [hname]), entry_eq (by simp [hlink]),
      entry_eq (by simp [hvers])]
    simp only [pure_bind]
    refine ((checkItem_checksWith item).1 hc).bind_due ?_ hrefused
    rw [List.append_assoc, List.append_assoc]
    refine (stringField_copies (by simp [hnameString])).bind_due ?_ hrefused
    refine (stringField_copies (by simp [hlinkString])).bind_due ?_ hrefused
    refine Triple.bind_modifyObj (K := fun _ => True) (fun _ _ => trivial) ?_
    refine Triple.bind_malloc_due (fun versions _ => ?_) fun hr => ?_
    · refine Triple.bind_modifyObj (K := fun sw => sw.versions = some versions) (fun _ _ => rfl) ?_
      refine Triple.bind_pure ?_
      refine Triple.bind_malloc_due (fun link _ => ?_) fun hr => ?_
      · refine Triple.bind_modifyObj (K := Owns link.id versions.id) ?_ ?_
        · intro sw h
          refine ⟨rfl, ?_⟩
          show sw.versions.map Block.id = some versions.id
          rw [h]
          rfl
        · refine Triple.bind_modifyObj (K := Owns link.id versions.id)
            (fun sw h => ⟨h.link, h.versions⟩) ?_
          refine (parseVersions_owns 0 (versionsField item)).conseq (fun _ _ => id) ?_ ?_
          · intro _ sw L h
            exact ⟨⟨hc, h.1⟩, link.id, versions.id, h.2⟩
          · intro e sw L h
            exact h.imp fun hnot hvalid => hnot hvalid.2
      · exact fun sw L h => hrefused hr sw _ trivial h.2.release
    · exact fun sw L h => hrefused hr sw _ trivial h.2
  · rw [if_neg hc, List.nil_append]
    refine ((checkItem_checksWith item).2 hc).bind_error_due ?_ hrefused
    exact fun sw L _ hdue => Or.inl ⟨rfl, fun hvalid => hc hvalid.1, hdue⟩

/-! ## The walk -/

/-- The list in the middle of the loop over the items: `own` are the blocks of the items stored. -/
def Walking (array idx total : Nat) (own : List Nat) (list : SoftwareList) : Prop :=
  ∃ b, list.items = some b ∧ b.id = array ∧ b.val.length = total ∧
    (b.val.take idx).flatMap itemBlocks = own

theorem Walking.listBlocks_eq {array idx total : Nat} {own : List Nat} {list : SoftwareList}
    (h : Walking array idx total own list) :
    listBlocks { list with length := idx } = own ++ [array] := by
  obtain ⟨b, hb, rfl, -, rfl⟩ := h
  rw [listBlocks, SoftwareList.visible, hb]
  rfl

/-- The slot behind the items is not among those that are released. -/
theorem Walking.setSlot {array idx total : Nat} {own : List Nat} {list : SoftwareList}
    (h : Walking array idx total own list) (sw : Software) :
    Walking array idx total own (setSlot idx sw list) := by
  obtain ⟨b, hb, rfl, hlen, hown⟩ := h
  refine ⟨⟨b.id, b.val.set idx sw⟩, ?_, rfl, ?_, ?_⟩
  · rw [ListParser.setSlot, hb]
    rfl
  · rw [List.length_set]
    exact hlen
  · rw [List.take_set_of_le le_rfl]
    exact hown

theorem Walking.store {array idx total link versions : Nat} {own : List Nat} {list : SoftwareList}
    (h : Walking array idx total own list) (hlt : idx < total) {sw : Software}
    (hsw : Owns link versions sw) :
    Walking array (idx + 1) total (own ++ [link, versions]) (ListParser.setSlot idx sw list) := by
  obtain ⟨b, hb, rfl, hlen, hown⟩ := h
  refine ⟨⟨b.id, b.val.set idx sw⟩, ?_, rfl, ?_, ?_⟩
  · rw [ListParser.setSlot, hb]
    rfl
  · rw [List.length_set]
    exact hlen
  · rw [List.take_add_one, List.take_set_of_le le_rfl, List.getElem?_set_self (by omega),
      List.flatMap_append, hown]
    show own ++ (itemBlocks sw ++ []) = _
    rw [List.append_nil, hsw.itemBlocks_eq]

theorem parseSlot_owns {array idx total : Nat} {own : List Nat} {tags : List Requester}
    (hlt : idx < total) (item : Json) :
    Triple (Within (Due (itemRequests item ++ tags) r live) (Walking array idx total own))
      (onPart (slot idx) (setSlot idx) (parseItem item))
      (fun _ list L => ValidItem item ∧ ∃ link versions,
        Walking array (idx + 1) total (own ++ [link, versions]) list ∧
          Due tags r (link :: versions :: live) L)
      (fun e list L => Fails (¬ ValidItem item) tags r live e L ∧
        Walking array idx total own list) := by
  refine Triple.onPart fun list => ?_
  refine Triple.pre (Triple.assume (φ := Walking array idx total own list) fun hw => ?_)
    (P := fun t L => Walking array idx total own list ∧
      Within (Due (itemRequests item ++ tags) r live) (fun _ => True) t L) ?_
  · refine (parseItem_owns item).conseq (fun _ _ => id) ?_ ?_
    · intro _ sw L h
      obtain ⟨hvalid, link, versions, howns, hdue⟩ := h
      exact ⟨hvalid, link, versions, hw.store hlt howns, hdue⟩
    · intro e sw L h
      exact ⟨h, hw.setSlot sw⟩
  · intro t L h
    exact ⟨h.2.1, trivial, h.2.2⟩

/-- How a walk ends: besides the blocks that are released with the list, blocks are left exactly
where a request of `parse_version` was the first that was refused. -/
def Ends (r : Option Requester) (list : SoftwareList) (L : Ledger) : Prop :=
  ∃ left, Owes (listBlocks list ++ left) L ∧ (left = [] ↔ r ≠ some .parseVersion)

/-- The number of the blocks that a walk leaves behind. -/
def leftBehind (r : Option Requester) : Nat := if r = some .parseVersion then 2 else 0

theorem leftBehind_eq_zero_iff : leftBehind r = 0 ↔ r ≠ some .parseVersion := by
  unfold leftBehind
  split_ifs with hr <;> simp [hr]

/-- How a walk ends next to other live blocks. -/
def EndsBeside (live : List Nat) (r : Option Requester) (list : SoftwareList) (L : Ledger) : Prop :=
  ∃ left, Owes (listBlocks list ++ (left ++ live)) L ∧ left.length = leftBehind r

theorem EndsBeside.ends {list : SoftwareList} {L : Ledger} (h : EndsBeside [] r list L) :
    Ends r list L := by
  obtain ⟨left, howes, hleft⟩ := h
  rw [List.append_nil] at howes
  refine ⟨left, howes, ?_⟩
  rw [← leftBehind_eq_zero_iff, ← hleft, List.length_eq_zero_iff]

theorem Walking.endsBeside {array idx total : Nat} {own : List Nat} {list : SoftwareList}
    {L : Ledger} (h : Walking array idx total own list) (howes : Owes (own ++ array :: live) L)
    (hr : r ≠ some .parseVersion) : EndsBeside live r { list with length := idx } L := by
  refine ⟨[], ?_, (leftBehind_eq_zero_iff.mpr hr).symm⟩
  rw [h.listBlocks_eq, List.append_assoc]
  exact howes

theorem walkItems_owns {array : Nat} {own : List Nat} (idx : Nat) (items : List Json) :
    Triple (Within (Due (itemsRequests items) r (own ++ array :: live))
        (Walking array idx (idx + items.length) own))
      (walkItems idx items) (fun _ => EndsBeside live r) (fun _ _ _ => False) := by
  induction items generalizing idx own with
  | nil =>
    refine Triple.bind (Triple.modifyObj (Q := fun _ => EndsBeside live r) fun list L h => ?_)
      fun _ => ?_
    · obtain ⟨hw, howes, hr⟩ := h
      exact hw.endsBeside howes (by rw [← hr]; exact nofun)
    · exact Triple.pure fun _ _ h => h
  | cons item items ih =>
    have hlt : idx < idx + (item :: items).length := by
      rw [List.length_cons]
      omega
    have htotal : idx + (item :: items).length = idx + 1 + items.length := by
      rw [List.length_cons]
      omega
    rw [itemsRequests]
    refine Triple.bind (parseSlot_owns hlt item).attempt fun res => ?_
    cases res with
    | ok _ =>
      dsimp only
      intro list L h
      obtain ⟨hvalid, link, versions, hw, hdue⟩ := h
      rw [if_pos hvalid] at hdue
      rw [htotal] at hw
      have hperm : ([link, versions] ++ own ++ array :: live).Perm
          (own ++ [link, versions] ++ array :: live) :=
        List.perm_append_comm.append_right (array :: live)
      exact ih (idx + 1) list L ⟨hw, hdue.perm hperm⟩
    | error e =>
      dsimp only
      intro list L h
      obtain ⟨⟨rfl, hvalid, hdue⟩ | ⟨rfl, hr, howes⟩ | ⟨rfl, hr, link, versions, howes⟩, hw⟩ := h
      · rw [if_neg hvalid] at hdue
        exact hw.endsBeside hdue.1 (by rw [← hdue.2]; exact nofun)
      · exact hw.endsBeside howes (by rw [hr]; exact nofun)
      · refine ⟨[link, versions], ?_, by rw [hr]; rfl⟩
        show Owes (listBlocks { list with length := idx } ++ ([link, versions] ++ live)) L
        rw [hw.listBlocks_eq]
        have hperm : ([link, versions] ++ (own ++ array :: live)).Perm
            (own ++ [array] ++ ([link, versions] ++ live)) := by
          rw [List.append_cons own]
          exact List.perm_append_comm_assoc _ _ _
        exact howes.perm hperm

/-- A walk next to other live blocks. -/
theorem walkList_ownsBeside (root : Json) :
    Triple (fun list L => list = SoftwareList.zero ∧ Due (walkRequests root) r live L)
      (walkList root) (fun _ => EndsBeside live r) (fun _ _ _ => False) := by
  unfold walkRequests
  by_cases hs : HasSoftware root
  · rw [walkList_of_hasSoftware hs, if_pos hs]
    refine Triple.bind_malloc_due (fun b hb => ?_) fun hr => ?_
    · refine Triple.bind_modifyObj
        (K := Walking b.id 0 (0 + (softwareField root).length) []) ?_ ?_
      · intro list _
        exact ⟨b, rfl, rfl, by simp [hb], rfl⟩
      · exact walkItems_owns 0 (softwareField root)
    · intro list L h
      obtain ⟨rfl, howes⟩ := h
      exact ⟨[], howes, (leftBehind_eq_zero_iff.mpr (by rw [hr]; exact nofun)).symm⟩
  · rw [walkList_of_not_hasSoftware hs, if_neg hs]
    refine Triple.pure fun list L h => ?_
    obtain ⟨rfl, howes, hr⟩ := h
    exact ⟨[], howes, (leftBehind_eq_zero_iff.mpr (by rw [← hr]; exact nofun)).symm⟩

theorem walkList_owns (root : Json) :
    Triple (fun list L => list = SoftwareList.zero ∧ Due (walkRequests root) r [] L) (walkList root)
      (fun _ => Ends r) (fun _ _ _ => False) :=
  (walkList_ownsBeside root).post fun _ _ _ h => h.ends

/-! ## The release of the list -/

theorem freeItems_owes {σ : Type} (items : List Software) :
    Triple (fun _ L => Owes (items.flatMap itemBlocks ++ live) L)
      (freeItems items : Prog Raised σ Unit) (fun _ _ L => Owes live L) (fun _ _ _ => False) := by
  induction items with
  | nil => exact Triple.pure fun _ _ h => h
  | cons sw items ih =>
    rw [List.flatMap_cons, itemBlocks, List.append_assoc, List.append_assoc]
    exact Triple.bind free_owes fun _ => Triple.bind free_owes fun _ => ih

theorem parserFreeList_owes {σ : Type} (list : SoftwareList) :
    Triple (fun _ L => Owes (listBlocks list ++ live) L)
      (parserFreeList list : Prog Raised σ Unit) (fun _ _ L => Owes live L)
      (fun _ _ _ => False) := by
  rw [listBlocks, List.append_assoc]
  exact Triple.bind (freeItems_owes list.visible) fun _ => free_owes

/-- `walk_list` on a list of zero bytes, and `parser_free_list` on what it made of it. -/
def walkAndFree (root : Json) : Prog Raised SoftwareList EupdRetCode := do
  let tRet ← walkList root
  let list ← readObj
  parserFreeList list
  return tRet

theorem walkAndFree_owes (root : Json) :
    Triple (fun list L => list = SoftwareList.zero ∧ Due (walkRequests root) r [] L)
      (walkAndFree root)
      (fun _ _ L => ∃ left, Owes left L ∧ (left = [] ↔ r ≠ some .parseVersion))
      (fun _ _ _ => False) := by
  refine Triple.bind (walkList_owns root) fun tRet => ?_
  refine Triple.bind (Q := fun list _ L => Ends r list L) (Triple.readObj fun _ _ h => h)
    fun list => ?_
  intro _ L h
  obtain ⟨left, howes, hleft⟩ := h
  have hfree := Triple.bind (@parserFreeList_owes left SoftwareList list)
    (f := fun _ => pure tRet) (R := fun _ _ L => Owes left L) fun _ => Triple.pure fun _ _ h => h
  obtain ⟨ret, x, L', hexec, howes'⟩ := hfree.run howes
  rw [hexec]
  exact ⟨left, howes', hleft⟩

/-- **The blocks of a walk.** `walk_list` and `parser_free_list` return and release every block exactly
once, exactly where the first request that is refused, if there is one, is not made by
`parse_version`. -/
theorem walkList_balanced_iff (root : Json) (grant : Nat → Bool) :
    (∃ tRet list L, (walkAndFree root).exec .zero (.start grant) = (.ok tRet, list, L) ∧
      L.released.Nodup ∧ L.Balanced) ↔ refusal grant 0 (walkRequests root) ≠ some .parseVersion := by
  obtain ⟨tRet, list, L, hexec, left, howes, hleft⟩ :=
    (walkAndFree_owes root).run (x := .zero) (L := .start grant) ⟨rfl, Owes.start grant, rfl⟩
  have hiff : L.Balanced ↔ refusal grant 0 (walkRequests root) ≠ some .parseVersion :=
    howes.balanced_iff.trans hleft
  rw [← hiff]
  constructor
  · intro h
    obtain ⟨tRet', list', L', hexec', -, hbalanced⟩ := h
    cases hexec.symm.trans hexec'
    exact hbalanced
  · intro h
    exact ⟨tRet, list, L, hexec, h.nodup_iff.mpr howes.nodup, h⟩

/-- A list of one item, whose only version has a revision that is too long for a `std::string` without
memory of its own. -/
def longRoot : Json :=
  .object [(SOFTWARE, .array [.object [(NAME, .string (ascii "a")), (LINK, .string (ascii "l")),
    (VERSIONS, .array [.object [(MAJOR, .numberUnsigned 1), (MINOR, .numberUnsigned 0),
      (REVISION, .string (ascii "bbbbbbbbbbbbbbbb")), (SEVERITY, .numberUnsigned 2)]])]])]

/-- With the copy of its revision refused, the blocks of the item are not released. -/
theorem walkList_leak :
    (∃ list L, (walkAndFree longRoot).exec .zero (.start fun n => n ≠ 3) =
        (.ok .wListIncomplete, list, L) ∧ L.acquired = [2, 1, 0] ∧ L.released = [0]) ∧
    ¬ ∀ (root : Json) (grant : Nat → Bool), ∃ tRet list L,
      (walkAndFree root).exec .zero (.start grant) = (.ok tRet, list, L) ∧
        L.released.Nodup ∧ L.Balanced := by
  have hret : ((walkAndFree longRoot).exec .zero (.start fun n => n ≠ 3)).1 =
      .ok .wListIncomplete := by decide +kernel
  have hacquired : ((walkAndFree longRoot).exec .zero (.start fun n => n ≠ 3)).2.2.acquired =
      [2, 1, 0] := by decide +kernel
  have hreleased : ((walkAndFree longRoot).exec .zero (.start fun n => n ≠ 3)).2.2.released =
      [0] := by decide +kernel
  have hall : ∀ tRet list L, (walkAndFree longRoot).exec .zero (.start fun n => n ≠ 3) =
      (.ok tRet, list, L) → ¬ L.Balanced := by
    intro tRet list L hexec hbalanced
    rw [hexec] at hacquired hreleased
    have hlen := hbalanced.length_eq
    rw [hacquired, hreleased] at hlen
    exact absurd hlen (by decide)
  refine ⟨?_, fun h => ?_⟩
  · generalize (walkAndFree longRoot).exec .zero (.start fun n => n ≠ 3) = run at *
    obtain ⟨ret, list, L⟩ := run
    exact ⟨list, L, congrArg (·, list, L) hret, hacquired, hreleased⟩
  · obtain ⟨tRet, list, L, hexec, -, hbalanced⟩ := h longRoot fun n => n ≠ 3
    exact hall tRet list L hexec hbalanced

end UpdateCheck.ListParser
