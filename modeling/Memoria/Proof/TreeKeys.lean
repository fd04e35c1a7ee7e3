import Memoria.Proof.TreePaths

/-!
# Writing to an owned path

The writes of an update that do not move nodes: a new list of entries in the node at the end of the
path, and the keys that its ancestors keep for it.
-/

namespace Memoria.PersistentTree

open Lib

variable {K B : Type} {t t' : PersistentTree K B} {others : Ptr → Nat} {l : Nat}

def BalancedStep (t t' : PersistentTree K B) : Prop :=
  ∀ x, t'.refsOf x + t.slots x = t.refsOf x + t'.slots x

theorem BalancedStep.refl (t : PersistentTree K B) : BalancedStep t t := fun _ => rfl

theorem BalancedStep.trans {t'' : PersistentTree K B} (h : BalancedStep t t')
    (h' : BalancedStep t' t'') : BalancedStep t t'' := by
  intro x
  have := h x
  have := h' x
  omega

theorem Balanced.step {ext : Ptr → Nat} (hb : Balanced t ext) (h : BalancedStep t t') :
    Balanced t' ext := by
  intro x
  have := hb x
  have := h x
  omega

def WritesTo (path : List Nat) (t t' : PersistentTree K B) : Prop :=
  t.nodes.next ≤ t'.nodes.next ∧
    ∀ p, p < t.nodes.next → p ∉ path → t'.bodyAt p = t.bodyAt p

theorem WritesTo.refl (path : List Nat) (t : PersistentTree K B) : WritesTo path t t :=
  ⟨le_rfl, fun _ _ _ => rfl⟩

theorem WritesTo.trans {path : List Nat} {t'' : PersistentTree K B} (h : WritesTo path t t')
    (h' : WritesTo path t' t'') : WritesTo path t t'' := by
  refine ⟨le_trans h.1 h'.1, ?_⟩
  intro p hp hne
  rw [h'.2 p (lt_of_lt_of_le hp h.1) hne, h.2 p hp hne]

theorem WritesTo.mono {path path' : List Nat} (h : WritesTo path t t')
    (hsub : ∀ p ∈ path, p ∈ path') : WritesTo path' t t' :=
  ⟨h.1, fun p hp hne => h.2 p hp fun hmem => hne (hsub p hmem)⟩

theorem SameBodies.writesTo (h : SameBodies t t') (path : List Nat) : WritesTo path t t' :=
  ⟨le_of_eq h.next.symm, fun p _ _ => h.body p⟩

theorem writesTo_setBody (t : PersistentTree K B) {p : Nat} {path : List Nat} (hp : p ∈ path)
    (b : Body K) : WritesTo path t (t.setBody p b) := by
  refine ⟨le_rfl, ?_⟩
  intro q _ hq
  refine bodyAt_setBody_of_ne t ?_ b
  rintro rfl
  exact hq hp

theorem ptrs_content_append (es es' : List (K × Slot K Value l)) :
    ptrs (content l (es ++ es')) = ptrs (content l es) ++ ptrs (content l es') := by
  cases l with
  | zero => exact List.map_append
  | succ l =>
      rw [content_succ, content_succ, content_succ, pointers_append]
      exact List.map_append

/-- New entries for the node at a position. -/
theorem Holds.setEntries {c : Ctx K Value l} {s : Slot K Value (l + 1)}
    (h : Holds t others (c.plug s)) {es : List (K × Slot K Value l)}
    (hnodup : (s.addr :: addrsOf es ++ (c.path ++ c.siblingAddrs)).Nodup)
    (hroot : t'.root = t.root) (hself : t'.bodyAt s.addr = some (content l es))
    (hrep : RepOf t'.bodyAt es)
    (hctx : ∀ p ∈ c.path ++ c.siblingAddrs, t'.bodyAt p = t.bodyAt p)
    (hbal : BalancedStep t t') (howned : t'.refsOf (.node t.root) = 1) :
    Holds t' others (c.plug (.node s.addr es)) := by
  refine ⟨?_, ?_, ?_, ?_, ?_⟩
  · refine (repRoot_plug c (.node s.addr es)).mpr ⟨⟨?_, hrep⟩, ?_⟩
    · rw [Slot.addr_node, hself, Slot.entries_node]
    · exact ((repRoot_plug c s).mp h.rep).2.congr hctx
  · exact (rootAddrs_plug c (.node s.addr es)).nodup_iff.mpr hnodup
  · rw [hroot, h.root]
    have hlast := Lib.getLast_path c s
    have hlast' := Lib.getLast_path c (.node s.addr es)
    exact Option.some.inj (hlast.symm.trans hlast')
  · rw [hroot]
    exact h.balanced.step hbal
  · rw [hroot]
    exact howned

/-- The case of entries all of whose children are old children of the node. -/
theorem Holds.setNode {c : Ctx K Value l} {s : Slot K Value (l + 1)}
    (h : Holds t others (c.plug s)) {es : List (K × Slot K Value l)}
    (hsub : (addrsOf es).Sublist (addrsOf s.entries)) (hrep : RepOf t.bodyAt es)
    (hroot : t'.root = t.root) (hself : t'.bodyAt s.addr = some (content l es))
    (hother : ∀ p, p < t.nodes.next → p ≠ s.addr → t'.bodyAt p = t.bodyAt p)
    (hbal : BalancedStep t t') (howned : t'.refsOf (.node t.root) = 1) :
    Holds t' others (c.plug (.node s.addr es)) := by
  have hnodup := List.nodup_cons.mp h.nodup_at
  have hsame : ∀ p ∈ addrsOf s.entries ++ (c.path ++ c.siblingAddrs), t'.bodyAt p = t.bodyAt p := by
    intro p hp
    refine hother p (h.lt_next_at (List.mem_cons_of_mem _ hp)) ?_
    rintro rfl
    exact hnodup.1 hp
  refine h.setEntries ?_ hroot hself ?_ ?_ hbal howned
  · exact h.nodup_at.sublist ((hsub.cons_cons s.addr).append_right _)
  · exact hrep.congr fun p hp => hsame p (List.mem_append_left _ (hsub.subset hp))
  · exact fun p hp => hsame p (List.mem_append_right _ hp)

/-- Another key for the node at a position. -/
theorem Holds.rekey {f : Frame K Value l} {c : Ctx K Value (l + 1)} {s : Slot K Value (l + 1)}
    (h : Holds t others ((Ctx.up f c).plug s)) (k : K) :
    let b : Body K := .branch (pointers f.left ++ (k, s.addr) :: pointers f.right)
    Holds (t.setBody f.addr b) others ((Ctx.up { f with key := k } c).plug s) ∧
      (∀ x, (t.setBody f.addr b).slots x = t.slots x) := by
  intro b
  have hparent := h.bodyAt_parent
  have hslots : ∀ x, (t.setBody f.addr b).slots x = t.slots x := by
    intro x
    have hset := slots_setBody hparent b x
    have hcount : (ptrs b).count x = (ptrs (.branch (f.pointersAt s.addr) : Body K)).count x := by
      simp [b, ptrs, Frame.pointersAt]
    omega
  refine ⟨?_, hslots⟩
  have hup : Holds t others (c.plug (f.plug s)) := h
  change Holds (t.setBody f.addr b) others
    (c.plug (.node (f.plug s).addr (f.left ++ (k, s) :: f.right)))
  refine hup.setNode ?_ ?_ rfl ?_ ?_ ?_ ?_
  · simp
  · have hall := (rep_node.mp ((repRoot_plug c (f.plug s)).mp h.rep).1).2
    simpa using hall
  · rw [Frame.addr_plug, bodyAt_setBody_self hparent]
    simp [b, content]
  · intro p _ hne
    exact bodyAt_setBody_of_ne t hne b
  · intro x
    rw [hslots, refsOf_setBody]
  · rw [refsOf_setBody]
    exact h.owned

theorem size_content (es : List (K × Slot K Value l)) : Body.size (content l es) = es.length := by
  unfold Body.size
  rw [content_keys, List.length_map]

section Keys

variable [Inhabited K]

theorem maxKey_content (es : List (K × Slot K Value l)) :
    Body.maxKey (content l es) = lastKey es := by
  unfold Body.maxKey lastKey
  rw [content_keys]

/-- `update_keys_up` from the position of a node whose last key may have changed. -/
theorem updateKeysUp_spec {c : Ctx K Value l} {s : Slot K Value (l + 1)}
    (h : Holds t others (c.plug s)) (insertionPoint : Nat) :
    ∃ t', t.updateKeysUp (s.addr :: c.path) insertionPoint = some t' ∧
      Holds t' others
        ((if s.entries.length ≤ insertionPoint + 1 then c.fixKeys s else c).plug s) ∧
      WritesTo c.path t t' ∧ (∀ x, t'.refsOf x = t.refsOf x) ∧ (∀ x, t'.slots x = t.slots x) ∧
      t'.nodes.next = t.nodes.next ∧ t'.root = t.root := by
  induction c generalizing t insertionPoint with
  | top =>
      refine ⟨t, rfl, ?_, .refl _ t, fun _ => rfl, fun _ => rfl, rfl, rfl⟩
      simpa [Ctx.fixKeys] using h
  | up f c ih =>
      obtain ⟨n, hn, hbody⟩ := read_of_bodyAt h.bodyAt_node
      have hparent := h.bodyAt_parent
      have hsize : n.body.size = s.entries.length := by rw [hbody, size_content]
      have hmax : n.body.maxKey = lastKey s.entries := by rw [hbody, maxKey_content]
      by_cases hlast : s.entries.length ≤ insertionPoint + 1
      · obtain ⟨h', hslots'⟩ := h.rekey (lastKey s.entries)
        let f' : Frame K Value _ := { f with key := lastKey s.entries }
        obtain ⟨t', hrun, ht', hwrites, hrefs, hslots, hnext, hroot⟩ :=
          ih (s := f'.plug s) h' f.left.length
        refine ⟨t', ?_, ?_, ?_, ?_, ?_, ?_, ?_⟩
        · simp only [Ctx.path, updateKeysUp, hn, Option.bind_eq_bind, Option.bind_some, hsize,
            hlast, if_true, branchEntries_of_bodyAt hparent, h.findChildNode, modify_pointersAt,
            hmax]
          exact hrun
        · have hright : (f'.plug s).entries.length ≤ f.left.length + 1 ↔ f.right.isEmpty = true := by
            simp [f', List.isEmpty_iff, ← List.length_eq_zero_iff]
          simp only [hlast, if_true, Ctx.fixKeys]
          simp only [hright] at ht'
          exact ht'
        · refine (writesTo_setBody t (p := f.addr) List.mem_cons_self _).trans
            (hwrites.mono fun p hp => List.mem_cons_of_mem _ hp)
        · intro x
          rw [hrefs, refsOf_setBody]
        · intro x
          rw [hslots, hslots']
        · rw [hnext, next_setBody]
        · rw [hroot, root_setBody]
      · refine ⟨t, ?_, ?_, .refl _ t, fun _ => rfl, fun _ => rfl, rfl, rfl⟩
        · simp only [Ctx.path, updateKeysUp, hn, Option.bind_eq_bind, Option.bind_some, hsize,
            hlast, if_false]
        · simpa [hlast] using h

/-- The key of a node written to its parent, and on to the root. -/
theorem setKey_spec {f : Frame K Value l} {c : Ctx K Value (l + 1)} {s : Slot K Value (l + 1)}
    (h : Holds t others ((Ctx.up f c).plug s)) :
    ∃ t', (t.setBody f.addr (.branch
        (pointers f.left ++ (lastKey s.entries, s.addr) :: pointers f.right))).updateKeysUp
          (f.addr :: c.path) f.left.length = some t' ∧
      Holds t' others (((Ctx.up f c).fixKeys s).plug s) ∧
      WritesTo (f.addr :: c.path) t t' ∧ (∀ x, t'.refsOf x = t.refsOf x) ∧
      t'.nodes.next = t.nodes.next ∧ t'.root = t.root := by
  obtain ⟨t', hrun, h', hwrites, hrefs, -, hnext, hroot⟩ := updateKeysUp_spec h s.entries.length
  obtain ⟨n, hn, hbody⟩ := read_of_bodyAt h.bodyAt_node
  have hsize : n.body.size ≤ s.entries.length + 1 := by
    rw [hbody, size_content]
    omega
  refine ⟨t', ?_, ?_, hwrites, hrefs, hnext, hroot⟩
  · simp only [Ctx.path, updateKeysUp, hn, Option.bind_eq_bind, Option.bind_some, hsize, if_true,
      branchEntries_of_bodyAt h.bodyAt_parent, h.findChildNode, modify_pointersAt] at hrun
    rw [hbody, maxKey_content] at hrun
    exact hrun
  · rw [if_pos (by omega)] at h'
    exact h'

end Keys

end Memoria.PersistentTree
