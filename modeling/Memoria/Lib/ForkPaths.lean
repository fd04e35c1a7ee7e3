import Memoria.Lib.SizedTree

/-!
# Other addresses on one of two paths

Two paths that meet in the root only are independent of each other: new nodes can take the place of
those below the root on one of them.
-/

namespace Memoria.Lib

variable {K V : Type} {l : Nat}

namespace Fork

def withLeft : {l : Nat} → Fork K V l → List Nat → Fork K V l
  | _, joint w, _ => joint w
  | _, apart p left key p' key' right g, ps =>
      apart (ps.headD p) left key p' key' right (g.withLeft ps.tail)

def withRight : {l : Nat} → Fork K V l → List Nat → Fork K V l
  | _, joint w, _ => joint w
  | _, apart p left key p' key' right g, ps =>
      apart p left key (ps.headD p') key' right (g.withRight ps.tail)

@[simp] theorem path'_withLeft (g : Fork K V l) (ps : List Nat) :
    (g.withLeft ps).path' = g.path' := by
  induction g generalizing ps with
  | joint w => rfl
  | apart p left key p' key' right g ih => rw [withLeft, path', path', ih]

@[simp] theorem path_withRight (g : Fork K V l) (ps : List Nat) :
    (g.withRight ps).path = g.path := by
  induction g generalizing ps with
  | joint w => rfl
  | apart p left key p' key' right g ih => rw [withRight, path, path, ih]

@[simp] theorem loOf_withLeft (g : Fork K V l) (ps : List Nat) : (g.withLeft ps).loOf = g.loOf := by
  induction g generalizing ps with
  | joint w => rfl
  | apart p left key p' key' right g ih => rw [withLeft, loOf, loOf, ih]

@[simp] theorem loOf_withRight (g : Fork K V l) (ps : List Nat) :
    (g.withRight ps).loOf = g.loOf := by
  induction g generalizing ps with
  | joint w => rfl
  | apart p left key p' key' right g ih => rw [withRight, loOf, loOf, ih]

@[simp] theorem trailOf_withLeft (g : Fork K V l) (ps : List Nat) :
    (g.withLeft ps).trailOf = g.trailOf := by
  induction g generalizing ps with
  | joint w => rfl
  | apart p left key p' key' right g ih => rw [withLeft, trailOf, trailOf, ih]

@[simp] theorem trailOf_withRight (g : Fork K V l) (ps : List Nat) :
    (g.withRight ps).trailOf = g.trailOf := by
  induction g generalizing ps with
  | joint w => rfl
  | apart p left key p' key' right g ih => rw [withRight, trailOf, trailOf, ih]

theorem same_withLeft (g : Fork K V l) (ps : List Nat) : Fork.Same g (g.withLeft ps) := by
  induction g generalizing ps with
  | joint w => exact .joint rfl
  | apart p left key p' key' right g ih => exact (ih ps.tail).apart

theorem same_withRight (g : Fork K V l) (ps : List Nat) : Fork.Same g (g.withRight ps) := by
  induction g generalizing ps with
  | joint w => exact .joint rfl
  | apart p left key p' key' right g ih => exact (ih ps.tail).apart

/-- The common parent is the root, which stays. -/
theorem first_withLeft {g : Fork K V l} (hroot : g.AtRoot) {ps : List Nat}
    (hlen : ps.length = g.path.length) (hlast : ps.getLast? = g.path.getLast?)
    (r : Slot K V (l + 1)) : (g.withLeft ps).first r = (g.first r).withPath ps := by
  induction g generalizing ps with
  | joint w =>
      have hctx : w.ctx.path = [] := hroot
      have hps : ps = (w.first r).path := by
        rw [path, hctx] at hlen hlast
        obtain ⟨p, rfl⟩ := List.length_eq_one_iff.mp hlen
        simpa [hctx] using hlast
      rw [hps]
      exact (Ctx.withPath_path _).symm
  | apart p left key p' key' right g ih =>
      cases ps with
      | nil => simp [path] at hlen
      | cons q ps =>
          simp only [path, List.length_cons, Nat.add_right_cancel_iff] at hlen
          rw [withLeft, first, List.tail_cons, ih hroot hlen ?_]
          · rfl
          · have hne : ps ≠ [] := by
              rintro rfl
              exact g.path_ne_nil (List.length_eq_zero_iff.mp hlen.symm)
            rwa [path, List.getLast?_cons_of_ne_nil g.path_ne_nil,
              List.getLast?_cons_of_ne_nil hne] at hlast

theorem second_withRight {g : Fork K V l} (hroot : g.AtRoot) {ps : List Nat}
    (hlen : ps.length = g.path'.length) (hlast : ps.getLast? = g.path'.getLast?)
    (s : Slot K V (l + 1)) : (g.withRight ps).second s = (g.second s).withPath ps := by
  induction g generalizing ps with
  | joint w =>
      have hctx : w.ctx.path = [] := hroot
      have hps : ps = (w.second s).path := by
        rw [path', hctx] at hlen hlast
        obtain ⟨p, rfl⟩ := List.length_eq_one_iff.mp hlen
        simpa [hctx] using hlast
      rw [hps]
      exact (Ctx.withPath_path _).symm
  | apart p left key p' key' right g ih =>
      cases ps with
      | nil => simp [path'] at hlen
      | cons q ps =>
          simp only [path', List.length_cons, Nat.add_right_cancel_iff] at hlen
          rw [withRight, second, List.tail_cons, ih hroot hlen ?_]
          · rfl
          · have hne : ps ≠ [] := by
              rintro rfl
              exact g.path'_ne_nil (List.length_eq_zero_iff.mp hlen.symm)
            rwa [path', List.getLast?_cons_of_ne_nil g.path'_ne_nil,
              List.getLast?_cons_of_ne_nil hne] at hlast

/-- The right node sees all of the left one. -/
theorem addrs_subset_second (g : Fork K V l) (s : Slot K V (l + 1)) :
    ∀ p ∈ addrs (l + 1) s, p ∈ (g.second s).siblingAddrs := by
  intro p hp
  induction g with
  | joint w => simp [second, Twins.second, Ctx.siblingAddrs, Frame.siblings, hp]
  | apart q left key q' key' right g ih =>
      refine List.mem_append_right _ (ih _ (List.mem_cons_of_mem _ ?_))
      change p ∈ addrsOf (left ++ [(key, s)])
      rw [addrsOf_append]
      exact List.mem_append_right _ (List.mem_append_left _ hp)

/-- Below the root, the right path is beside the left one. -/
theorem dropLast_subset_first {g : Fork K V l} (hroot : g.AtRoot) (r : Slot K V (l + 1)) :
    ∀ p ∈ (r.addr :: g.path').dropLast, p ∈ (g.first r).siblingAddrs := by
  intro p hp
  induction g with
  | joint w =>
      have hctx : w.ctx.path = [] := hroot
      rw [path', hctx] at hp
      obtain rfl := List.mem_singleton.mp hp
      exact addrs_subset_first (.joint w) r _ List.mem_cons_self
  | apart q left key q' key' right g ih =>
      rcases List.mem_cons.mp hp with rfl | hp
      · exact addrs_subset_first (.apart q left key q' key' right g) r _ List.mem_cons_self
      · exact List.mem_append_right _ (ih hroot (.node q' ((key', r) :: right)) hp)

theorem dropLast_subset_second {g : Fork K V l} (hroot : g.AtRoot) (s : Slot K V (l + 1)) :
    ∀ p ∈ (s.addr :: g.path).dropLast, p ∈ (g.second s).siblingAddrs := by
  intro p hp
  induction g with
  | joint w =>
      have hctx : w.ctx.path = [] := hroot
      rw [path, hctx] at hp
      obtain rfl := List.mem_singleton.mp hp
      exact addrs_subset_second (.joint w) s _ List.mem_cons_self
  | apart q left key q' key' right g ih =>
      rcases List.mem_cons.mp hp with rfl | hp
      · exact addrs_subset_second (.apart q left key q' key' right g) s _ List.mem_cons_self
      · exact List.mem_append_right _ (ih hroot (.node q (left ++ [(key, s)])) hp)

/-- Two paths that have no node in common below the root meet in the root. -/
theorem atRoot_of_disjoint {g : Fork K V l} {s r : Slot K V (l + 1)}
    (h : ∀ p ∈ (r.addr :: g.path').dropLast, p ∉ (s.addr :: g.path).dropLast) : g.AtRoot := by
  induction g with
  | joint w =>
      change w.ctx.path = []
      by_contra hne
      have hmem : ∀ q : Nat, w.addr ∈ (q :: w.addr :: w.ctx.path).dropLast := by
        intro q
        rw [List.dropLast_cons_of_ne_nil (List.cons_ne_nil _ _), List.dropLast_cons_of_ne_nil hne]
        exact List.mem_cons_of_mem _ List.mem_cons_self
      exact h w.addr (hmem r.addr) (hmem s.addr)
  | apart q left key q' key' right g ih =>
      refine ih (s := .node q (left ++ [(key, s)])) (r := .node q' ((key', r) :: right)) ?_
      intro p hp hp'
      exact h p (List.mem_cons_of_mem _ hp) (List.mem_cons_of_mem _ hp')

section Order

variable [Inhabited K] [LinearOrder K]

theorem ValidAt.withLeft {g : Fork K V l} {s s' r : Slot K V (l + 1)} (h : g.ValidAt s r)
    (hs : Alike s s') (ps : List Nat) : (g.withLeft ps).ValidAt s' r := by
  induction g generalizing ps with
  | joint w =>
      refine (Ctx.Same.refl w.ctx).valid_xplug ?_ h
      exact hs.plug (f := ⟨w.addr, w.left, lastKey s.entries, (lastKey r.entries, r) :: w.right⟩)
        (g := ⟨w.addr, w.left, lastKey s'.entries, (lastKey r.entries, r) :: w.right⟩) rfl rfl
        hs.last
  | apart p left key p' key' right g ih =>
      refine ih h ?_ ps.tail
      exact hs.plug (f := ⟨p, left, lastKey s.entries, []⟩)
        (g := ⟨ps.headD p, left, lastKey s'.entries, []⟩) rfl rfl hs.last

theorem ValidAt.withRight {g : Fork K V l} {s r r' : Slot K V (l + 1)} (h : g.ValidAt s r)
    (hr : Alike r r') (ps : List Nat) : (g.withRight ps).ValidAt s r' := by
  induction g generalizing ps with
  | joint w =>
      rw [validAt_joint] at h
      exact validAt_joint.mpr ((Ctx.Same.refl _).valid_xplug hr h)
  | apart p left key p' key' right g ih =>
      refine ih h ?_ ps.tail
      exact hr.plug (f := ⟨p', [], lastKey r.entries, right⟩)
        (g := ⟨ps.headD p', [], lastKey r'.entries, right⟩) rfl rfl hr.last

theorem Loose.withLeft {g : Fork K V l} (h : g.Loose) (ps : List Nat) : (g.withLeft ps).Loose := by
  induction g generalizing ps with
  | joint w => exact h
  | apart p left key p' key' right g ih => exact ih h ps.tail

theorem Loose.withRight {g : Fork K V l} (h : g.Loose) (ps : List Nat) :
    (g.withRight ps).Loose := by
  induction g generalizing ps with
  | joint w => exact h
  | apart p left key p' key' right g ih => exact ih h ps.tail

end Order

end Fork

end Memoria.Lib
