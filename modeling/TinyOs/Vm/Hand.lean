import TinyOs.Vm.Machine

/-!
The clock hand against `frame_list`. Before each removal the source moves the hand off the
frame it removes (`hand = list_next (hand); check_and_set_hand ();`), and `ft_replacement`
moves it once more after the removal. The wrap-around in `check_and_set_hand` brings the hand
back onto the frame being removed when that frame is the only one left, and the hand then
points at a freed `struct frame`.

* `HandLinked`: the hand is the head sentinel or a frame linked in `frame_list`;
* `ftGetPage_handLinked`: taking a frame keeps the hand linked, the replacement path included;
* `unlinkFrame_handLinked`, `unlinkFrame_dangles`: a removal keeps the hand linked unless it
  removes the last frame while the hand is on it, and then the hand is left on the removed
  frame;
* `ftReplacement_one_frame`: evicting from a one-frame table follows the freed frame;
* `hand_dangles_after_exit`: a run of the machine that reaches such a state through
  `ft_destroy` at process exit.
-/

namespace TinyOs

namespace VmState

/-- The clock hand is on the head sentinel or on a frame linked in `frame_list`. -/
def HandLinked (s : VmState) : Prop := s.hand.Linked s.frameIds

instance : DecidablePred HandLinked := fun s =>
  inferInstanceAs (Decidable (s.hand.Linked s.frameIds))

/-! ### Moving the hand -/

/-- From a linked frame, `list_next` and `check_and_set_hand` land on a linked frame. -/
lemma advanceHand_linked {ids : List ℕ} {a : ℕ} {c : Cursor ℕ} (hnd : ids.Nodup) (ha : a ∈ ids)
    (h : advanceHand ids (.elem a) = some c) : c.Linked ids := by
  by_cases hs : ids = [a]
  · subst hs
    rw [advanceHand_single, Option.some.injEq] at h
    subst h
    exact ha
  · obtain ⟨b, hb, -, hadv⟩ := advanceHand_elem hnd ha hs
    rw [hadv, Option.some.injEq] at h
    subst h
    exact hb

/-- The guarded advance before a removal leaves the hand off frame `id` and on a frame of the
list, unless `id` is the only frame and the hand is on it. -/
lemma handOff_linked {s : VmState} {id : ℕ} {hand : Cursor ℕ} (hnd : s.frameIds.Nodup)
    (hl : s.HandLinked) (hsole : ¬(s.hand = .elem id ∧ s.frameIds = [id]))
    (h : s.handOff id = some hand) : hand.Linked (s.frameIds.filter (· ≠ id)) := by
  unfold handOff at h
  split_ifs at h with hh
  · -- the hand is on the frame being removed: it moves to another frame
    have hid : id ∈ s.frameIds := by
      unfold HandLinked at hl
      rwa [hh] at hl
    obtain ⟨b, hb, hne, hadv⟩ := advanceHand_elem hnd hid fun hs => hsole ⟨hh, hs⟩
    rw [hh, hadv, Option.some.injEq] at h
    subst h
    simpa [Cursor.Linked] using ⟨hb, hne⟩
  · rw [Option.some.injEq] at h
    subst h
    unfold HandLinked at hl
    cases hc : s.hand with
    | head => trivial
    | elem a =>
        rw [hc] at hl hh
        have hne : a ≠ id := fun he => hh (by rw [he])
        simpa [Cursor.Linked] using ⟨hl, hne⟩
    | tail =>
        rw [hc] at hl
        exact hl.elim

/-! ### Removal -/

/-- A removal keeps the hand linked, unless it removes the last frame while the hand is on it. -/
theorem unlinkFrame_handLinked {s s' : VmState} {id : ℕ} (hnd : s.frameIds.Nodup)
    (hl : s.HandLinked) (hsole : ¬(s.hand = .elem id ∧ s.frameIds = [id]))
    (h : s.unlinkFrame id = some s') : s'.HandLinked := by
  obtain ⟨hand, hoff, rfl⟩ := unlinkFrame_eq_some.mp h
  have hlink := handOff_linked hnd hl hsole hoff
  unfold HandLinked frameIds
  rwa [frameIds_filter]

/-- Removing the last frame while the hand is on it leaves the hand on the removed frame:
`check_and_set_hand` wraps `list_next`'s tail back to `list_begin`, which is still that frame. -/
theorem unlinkFrame_dangles {s : VmState} {id : ℕ} (hh : s.hand = .elem id)
    (hids : s.frameIds = [id]) :
    ∃ s', s.unlinkFrame id = some s' ∧ s'.frameList = [] ∧ s'.hand = .elem id ∧ ¬s'.HandLinked := by
  have hoff : s.handOff id = some (.elem id) := by
    rw [handOff, if_pos hh, hh, hids, advanceHand_single]
  have hnil : s.frameList.filter (·.id ≠ id) = [] := by
    have : s.frameIds.filter (· ≠ id) = [] := by simp [hids]
    rwa [← frameIds_filter, List.map_eq_nil_iff] at this
  refine ⟨_, unlinkFrame_eq_some.mpr ⟨_, hoff, rfl⟩, hnil, rfl, ?_⟩
  simp [HandLinked, Cursor.Linked, frameIds]

/-! ### Eviction -/

/-- What `ft_replacement` does to the frame table: the victim `f` is a frame of the list with
the hand on it, it is unlinked, and the hand then advances once more. -/
lemma ftReplacement_table {s s' : VmState} {p : ℕ} (h : s.ftReplacement = some (p, s')) :
    ∃ (f : Frame) (s₂ s₃ : VmState), f ∈ s.frameList ∧ s₂.frameIds = s.frameIds ∧ s₂.hand = .elem f.id ∧
      s₂.unlinkFrame f.id = some s₃ ∧ advanceHand s₃.frameIds s₃.hand = some s'.hand ∧
      s'.frameList = s₃.frameList := by
  obtain ⟨f, s₁, e, pr, s₂, s₃, hand, h₁, -, -, h₂, h₃, hadv, -, rfl⟩ := ftReplacement_eq_some h
  obtain ⟨hf, -, hfl₁, hh₁⟩ := getFrameForReplacement_spec h₁
  obtain ⟨hfl₂, hh₂⟩ := evictFrame_frames h₂
  have hids : s₂.frameIds = s.frameIds := by
    unfold frameIds
    rw [hfl₂, hfl₁]
  exact ⟨f, s₂, s₃, hf, hids, hh₂.trans hh₁, h₃, hadv, rfl⟩

/-- Evicting from a table of one frame never completes: the hand wraps back onto the victim,
the victim is unlinked and freed, and the final `list_next` follows the freed frame. -/
theorem ftReplacement_one_frame {s : VmState} {id : ℕ} (hs : s.frameIds = [id]) :
    s.ftReplacement = none := by
  cases h : s.ftReplacement with
  | none => rfl
  | some r =>
      obtain ⟨p, s'⟩ := r
      obtain ⟨f, s₂, s₃, hf, hids, hh, h₃, hadv, -⟩ := ftReplacement_table h
      have hid : f.id = id := by
        have : f.id ∈ s.frameIds := List.mem_map_of_mem hf
        simpa [hs] using this
      rw [hs, ← hid] at hids
      obtain ⟨s₃', hu, hnil, hhand, -⟩ := unlinkFrame_dangles hh hids
      rw [hu, Option.some.injEq] at h₃
      subst h₃
      simp [frameIds, hnil, hhand, advanceHand, listNext, nextAfter] at hadv

/-- Eviction keeps the hand linked. -/
theorem ftReplacement_handLinked {s s' : VmState} {p : ℕ} (hnd : s.frameIds.Nodup)
    (h : s.ftReplacement = some (p, s')) : s'.HandLinked := by
  obtain ⟨f, s₂, s₃, hf, hids, hh, h₃, hadv, hfl⟩ := ftReplacement_table h
  have hfid : f.id ∈ s.frameIds := List.mem_map_of_mem hf
  by_cases hs : s.frameIds = [f.id]
  · rw [ftReplacement_one_frame hs] at h
    cases h
  -- the hand moves from the victim to another frame `b`, then on from `b`
  obtain ⟨b, hb, hne, hadv₂⟩ := advanceHand_elem hnd hfid hs
  obtain ⟨hand₃, hoff, rfl⟩ := unlinkFrame_eq_some.mp h₃
  rw [handOff, if_pos hh, hh, hids, hadv₂, Option.some.injEq] at hoff
  subst hoff
  have hids₃ : (s₂.frameList.filter (·.id ≠ f.id)).map (·.id) = s.frameIds.filter (· ≠ f.id) := by
    rw [frameIds_filter, hids]
  have hb₃ : b ∈ s.frameIds.filter (· ≠ f.id) := by simpa using ⟨hb, hne⟩
  simp only [frameIds, hids₃] at hadv
  unfold HandLinked frameIds
  rw [hfl]
  show s'.hand.Linked ((s₂.frameList.filter (·.id ≠ f.id)).map (·.id))
  rw [hids₃]
  exact advanceHand_linked (hnd.filter _) hb₃ hadv

/-! ### Taking a frame -/

/-- Taking a frame keeps the hand linked, also when the frame comes from an eviction. -/
theorem ftGetPage_handLinked {s s' : VmState} {t : Tid} {zero : Bool} {fid : ℕ}
    (hnd : s.frameIds.Nodup) (hl : s.HandLinked) (h : s.ftGetPage t zero = some (fid, s')) :
    s'.HandLinked := by
  unfold ftGetPage at h
  split at h
  · rename_i p _
    rw [Option.some.injEq, Prod.mk.injEq] at h
    obtain ⟨-, rfl⟩ := h
    exact Cursor.Linked.mono (fun a ha => by simp [frameIds, pushFrame, takePage] at ha ⊢; exact .inl ha) hl
  · obtain ⟨⟨p, s₁⟩, hr, he⟩ := Option.map_eq_some_iff.mp h
    rw [Prod.mk.injEq] at he
    obtain ⟨-, rfl⟩ := he
    have hl₁ : s₁.HandLinked := ftReplacement_handLinked hnd hr
    refine Cursor.Linked.mono (fun a ha => ?_) hl₁
    simp only [frameIds, pushFrame, List.map_append, List.mem_append] at ha ⊢
    exact .inl ha

end VmState

/-- A process grows its stack by one page, then by another that a two-page user pool can only
give by evicting the first, and exits. -/
def handStart : VmState :=
  vmInit 2 (fun _ => Page.zero) (fun _ => ⟨0, fun _ => 0, 0⟩) 16 (fun _ _ => 0)

/-- The steps of that run: `setup_stack`, two stack-growth faults, `thread_exit` and
`process_exit`. -/
def handRun : List VmEvent :=
  [.spawn 1, .stack 1, .stackInstall 1 true,
   .fault 1 0xBFFFE000 0xBFFFE000, .load 1, .install 1 true,
   .fault 1 0xBFFFD000 0xBFFFD000, .load 1, .install 1 true,
   .exit 1, .processExit 1]

/-- The eviction leaves the hand on the frame of the second page (frame 1); `ft_destroy`
removes frame 1, moving the hand to frame 2, then removes frame 2 with the hand wrapping back
onto it. The run ends with an empty `frame_list` and the hand on the freed frame 2. -/
theorem hand_dangles_after_exit :
    ∃ s, VmReachable s ∧ vmRun handStart handRun = some s ∧ s.frameList = [] ∧
      s.hand = .elem 2 ∧ ¬s.HandLinked := by
  have hrun : (vmRun handStart handRun).map (fun s => (s.frameList, s.hand)) =
      some ([], .elem 2) := by
    decide
  obtain ⟨s, hs, he⟩ := Option.map_eq_some_iff.mp hrun
  rw [Prod.mk.injEq] at he
  refine ⟨s, (VmReachable.init _ _ _ _ _).run hs, hs, he.1, he.2, ?_⟩
  simp [VmState.HandLinked, VmState.frameIds, Cursor.Linked, he.1, he.2]

end TinyOs
