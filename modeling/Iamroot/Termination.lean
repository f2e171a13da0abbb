import Mathlib.Data.Fintype.Option
import Mathlib.Order.Interval.Finset.Nat
import Mathlib.Data.Set.Finite.List
import Mathlib.Data.Finite.Prod
import Iamroot.Indices

/-!
# When the symlink walk returns

The links that a walk expands are counted, the redirects by the attribute are
not. The states of a walk are finitely many, so a walk that does not return
comes back to a state; between two redirects it cannot. It returns exactly
when it never follows an attribute twice in one state.
-/

namespace Iamroot

open Orbit

/-! ## The states are finitely many -/

instance : Fintype Errno := Fintype.ofList [.EPERM, .ENOENT, Errno.EIO, .ENOEXEC, .EACCES, .EEXIST, .ENOTDIR, .EINVAL, .ENOSPC,
  .EROFS, .ERANGE, .ENAMETOOLONG, .ELOOP, .ENODATA, .ENOTSUP, .EBADF, .E2BIG, .EAGAIN, .ENOSYS] fun e => by cases e <;> decide

theorem finite_char : Finite Char := by
  apply Finite.of_injective fun c : Char => (⟨c.val.toNat, c.val.toBitVec.isLt⟩ : Fin (2 ^ 32))
  intro c d h
  apply Char.ext
  apply UInt32.toNat.inj
  exact congrArg Fin.val h

theorem inBounds_finite : {s : Scan | InBounds s}.Finite := by
  have hchar := finite_char
  have hstack := List.finite_length_eq Char (pathMax + 1)
  have hout := List.finite_length_lt Char pathMax
  have hnat := Set.finite_le_nat (pathMax + 1)
  have hrest : (Set.univ : Set (Bool × Option Errno)).Finite := Set.finite_univ
  have hprod := ((hstack.prod hnat).prod (hout.prod (hnat.prod hnat))).prod hrest
  apply Set.Finite.subset (hprod.preimage (f := fun s : Scan =>
    (((s.stack, s.p), (s.output, (s.cnt, s.nup))), (s.checkDir, s.errno))) ?_)
  · intro s B
    have hu := B.ups.le
    have hp := B.p_le
    have hq := B.q_lt
    have hc : s.cnt < 40 := B.cnt_lt
    have : 40 ≤ pathMax := by decide
    refine ⟨⟨⟨B.size, ?_⟩, ⟨B.q_lt, ?_, ?_⟩⟩, trivial⟩
    · show s.p ≤ pathMax + 1
      omega
    · show s.cnt ≤ pathMax + 1
      omega
    · show s.nup ≤ pathMax + 1
      omega
  · rintro ⟨⟩ - ⟨⟩ - h
    simp only [Prod.mk.injEq] at h
    obtain ⟨⟨⟨rfl, rfl⟩, rfl, rfl, rfl⟩, rfl, rfl⟩ := h
    rfl

/-! ## Every turn without a redirect comes nearer to the end -/

/-- The links that may still be expanded, then what is unread. -/
def measure (s : Scan) : Nat := (symloopMax - s.cnt) * (2 * pathMax + 2) + rank s

section
variable {h : Host} {env : Option Str} {errnoSave : Option Errno} {atflags : Word} {s s' : Scan} {filename : Str}

theorem rank_le (s : Scan) : rank s ≤ 2 * pathMax + 1 := by
  have := Bool.toNat_le s.checkDir
  unfold rank
  omega

theorem rank_skipped_le (s : Scan) : rank (skipped s) ≤ rank s := by
  show 2 * (pathMax - (s.p + slashLen (s.stack.drop s.p))) + s.checkDir.toNat ≤ _
  unfold rank
  omega

theorem measure_passed {s₁ : Scan} (P : Passed s s₁) : measure (skipped s₁) < measure s := by
  have h1 := rank_skipped_le s₁
  have h2 := P.rank
  have hc : (skipped s₁).cnt = s.cnt := P.cnt
  unfold measure
  rw [hc]
  omega

theorem measure_linked (hcnt : s'.cnt = s.cnt + 1) (hlt : s.cnt < symloopMax) : measure s' < measure s := by
  have h1 := rank_le s'
  have h2 : symloopMax - s.cnt = symloopMax - s'.cnt + 1 := by omega
  unfold measure
  rw [h2, Nat.add_mul]
  omega

theorem measure_after (B : InBounds s) (hR : ¬ ∃ v, Redirects h atflags s v)
    (ha : after h env errnoSave atflags s = some s') : measure s' < measure s := by
  have hnext : ∀ {s₁}, turn h env errnoSave atflags s = .next s₁ → Passed s s₁ → measure s' < measure s := by
    intro s₁ ht P
    rw [after_next ht] at ha
    obtain rfl := Option.some.inj ha
    exact measure_passed P
  have hend : after h env errnoSave atflags s = none → measure s' < measure s := by
    intro hn
    rw [hn] at ha
    cases ha
  rcases turn_cases B with A | ⟨s₁, ht, P⟩ | ht | ⟨e, ht⟩
  · rcases asks_cases B A with hv | ⟨s₁, ht, P⟩ | ⟨e, ht⟩ | ⟨t, x, L, -, hx, hc, ht⟩
    · exact absurd hv hR
    · exact hnext ht P
    · exact hend (by rw [after, ht])
    · have X : InBounds x := by
        obtain ⟨e, rfl⟩ := hx
        exact { copied_inBounds B with }
      have hxc : x.cnt = s.cnt := by
        obtain ⟨e, rfl⟩ := hx
        rfl
      rcases followLink_bounds X L.ne_nil hc ht with hf | ⟨s₁, hs, -, hcnt⟩
      · exact hend (by rw [after, hf])
      · rw [after_restart hs] at ha
        obtain rfl := Option.some.inj ha
        exact measure_linked (by rw [hcnt, hxc]) B.cnt_lt
  · exact hnext ht P
  · exact hend (by rw [after, ht])
  · exact hend (by rw [after, ht])

/-! ## The call -/

/-- The call comes back to its caller, with a path or with an error. -/
def Returns : Ret Str → Prop
  | .done _ => True
  | .fail _ => True
  | .fault => False
  | .unfinished => False

theorem loop_unfinished_iff {n : Nat} {s : Scan} : loop h env errnoSave atflags n s = .unfinished ↔
    orbit (after h env errnoSave atflags) s n ≠ none := by
  induction n generalizing s with
  | zero => exact iff_of_true rfl (by simp [orbit])
  | succ n ih =>
    rw [loop]
    cases ht : turn h env errnoSave atflags s with
    | next s' =>
      rw [orbit_succ' (after_next ht)]
      exact ih
    | restart s' =>
      rw [orbit_succ' (after_restart ht)]
      exact ih
    | leave s' => exact iff_of_false (by simp) fun hne => hne (orbit_stop (by rw [after, ht]) n)
    | fail e => exact iff_of_false (by simp) fun hne => hne (orbit_stop (by rw [after, ht]) n)
    | fault => exact iff_of_false (by simp) fun hne => hne (orbit_stop (by rw [after, ht]) n)

theorem realpathat_loop (h0 : filename ≠ []) (hl : filename.length < pathMax) (fuel : Nat) :
    realpathat h env errnoSave fuel filename atflags =
      match loop h env errnoSave atflags fuel (initial filename errnoSave) with
      | .done s => absolute h s
      | .fail e => .fail e
      | .fault => .fault
      | .unfinished => .unfinished := by
  have := List.length_pos_of_ne_nil h0
  have hn : strnlen filename (pathMax + 1) = filename.length := Nat.min_eq_left (by omega)
  cases hr : loop h env errnoSave atflags fuel (initial filename errnoSave)
  all_goals
    simp only [realpathat, hn, hr]
    rw [if_neg (by omega), if_neg (by omega)]

variable (h env errnoSave atflags) in
theorem realpathat_refused (h0 : filename = [] ∨ pathMax ≤ filename.length) (fuel : Nat) :
    ∃ e, realpathat h env errnoSave fuel filename atflags = .fail e := by
  unfold realpathat
  dsimp only
  split
  · exact ⟨_, rfl⟩
  rename_i hz
  rw [if_pos]
  · exact ⟨_, rfl⟩
  · have hne : filename ≠ [] := by
      rintro rfl
      exact hz rfl
    have := h0.resolve_left hne
    unfold strnlen
    omega

variable (h env errnoSave atflags) in
theorem stateAt_refused (h0 : filename = [] ∨ pathMax ≤ filename.length) (i : Nat) :
    stateAt h env errnoSave atflags filename i = none := by
  apply if_pos
  unfold strnlen
  rcases h0 with rfl | hl
  · exact Or.inl rfl
  · omega

theorem stops_iff_no_redirect_again (hl : filename.length < pathMax) :
    (∃ n, orbit (after h env errnoSave atflags) (initial filename errnoSave) n = none) ↔
      ∀ i j s, i < j → orbit (after h env errnoSave atflags) (initial filename errnoSave) i = some s →
        orbit (after h env errnoSave atflags) (initial filename errnoSave) j = some s → ¬ ∃ v, Redirects h atflags s v :=
  stops_iff inBounds_finite (initial_inBounds hl errnoSave) (fun _ _ => after_inBounds)
    fun _ _ B hR ha => measure_after B hR ha

/-- A walk that stops, with every turn of it defined, returns. -/
theorem returns_of_stop (h0 : filename ≠ []) (hl : filename.length < pathMax) {n : Nat}
    (hn : orbit (after h env errnoSave atflags) (initial filename errnoSave) n = none)
    (hdef : ∀ i s, orbit (after h env errnoSave atflags) (initial filename errnoSave) i = some s →
      turn h env errnoSave atflags s ≠ .fault) :
    Returns (realpathat h env errnoSave n filename atflags) := by
  have hne : loop h env errnoSave atflags n (initial filename errnoSave) ≠ .unfinished :=
    fun hu => loop_unfinished_iff.mp hu hn
  rw [realpathat_loop h0 hl]
  obtain ⟨i, a, ha, -, ⟨s', ht, hr⟩ | ⟨e, -, hr⟩ | ⟨ht, -⟩⟩ := loop_result hne
  · rw [hr]
    have A : InBounds a := orbit_inv (initial_inBounds hl errnoSave) (fun _ _ => after_inBounds) ha
    obtain rfl := leave_eq A ht
    dsimp only
    rcases absolute_cases (h := h) s' A.q_lt with ⟨e, he⟩ | ⟨path, hp, -⟩
    · rw [he]
      trivial
    · rw [hp]
      trivial
  · rw [hr]
    trivial
  · exact absurd ht (hdef i a ha)

variable (h env errnoSave atflags filename) in
theorem returns_iff_defined :
    (∃ fuel, Returns (realpathat h env errnoSave fuel filename atflags)) ↔
      (∀ i s, stateAt h env errnoSave atflags filename i = some s → turn h env errnoSave atflags s ≠ .fault) ∧
      ∀ i j s, i < j → stateAt h env errnoSave atflags filename i = some s →
        stateAt h env errnoSave atflags filename j = some s → ¬ ∃ v, Redirects h atflags s v := by
  by_cases hstart : filename = [] ∨ pathMax ≤ filename.length
  · have hnone := stateAt_refused h env errnoSave atflags hstart
    refine iff_of_true ⟨0, ?_⟩ ⟨?_, ?_⟩
    · obtain ⟨e, he⟩ := realpathat_refused h env errnoSave atflags hstart 0
      rw [he]
      trivial
    · intro i s hs
      rw [hnone i] at hs
      cases hs
    · intro i j s _ hs
      rw [hnone i] at hs
      cases hs
  rw [not_or, Nat.not_le] at hstart
  obtain ⟨h0, hl⟩ := hstart
  simp only [stateAt_of_short h0 hl]
  constructor
  · rintro ⟨fuel, hr⟩
    rw [realpathat_loop h0 hl] at hr
    have hne : loop h env errnoSave atflags fuel (initial filename errnoSave) ≠ .unfinished := by
      intro hu
      rw [hu] at hr
      exact hr
    refine ⟨fun i s hs ht => ?_, ?_⟩
    · obtain ⟨j, a, ha, hend, hcase⟩ := loop_result hne
      have hsn : after h env errnoSave atflags s = none := by rw [after, ht]
      obtain rfl : s = a := orbit_last_unique hs hsn ha hend
      rcases hcase with ⟨s', ht', -⟩ | ⟨e, ht', -⟩ | ⟨-, hf⟩
      · cases ht.symm.trans ht'
      · cases ht.symm.trans ht'
      · rw [hf] at hr
        exact hr
    · apply (stops_iff_no_redirect_again hl).mp
      refine ⟨fuel, ?_⟩
      by_contra hn
      exact hne (loop_unfinished_iff.mpr hn)
  · rintro ⟨hdef, hrep⟩
    obtain ⟨n, hn⟩ := (stops_iff_no_redirect_again hl).mpr hrep
    exact ⟨n, returns_of_stop h0 hl hn hdef⟩

variable (h env errnoSave atflags filename) in
theorem defined_iff_room :
    (∀ i s, stateAt h env errnoSave atflags filename i = some s → turn h env errnoSave atflags s ≠ .fault) ↔
      ∀ i s, stateAt h env errnoSave atflags filename i = some s → HasRoom h env atflags s :=
  forall_congr' fun _ => forall_congr' fun _ => forall_congr' fun hs =>
    not_iff_comm.mp (turn_fault_iff h env errnoSave (stateAt_inBounds hs)).symm

variable (h env errnoSave atflags filename) in
/-- The walk returns exactly when every turn has room and no attribute is followed twice in one state. -/
theorem realpathat_returns_iff :
    (∃ fuel, Returns (realpathat h env errnoSave fuel filename atflags)) ↔
      (∀ i s, stateAt h env errnoSave atflags filename i = some s → HasRoom h env atflags s) ∧
      ∀ i j s, i < j → stateAt h env errnoSave atflags filename i = some s →
        stateAt h env errnoSave atflags filename j = some s → ¬ ∃ v, Redirects h atflags s v := by
  rw [returns_iff_defined, defined_iff_room]

/-- On a host without attributes the links alone come to an end. -/
theorem returns_iff_room (hno : ∀ path size v, getxattr h path size = .ok v → v = []) :
    (∃ fuel, Returns (realpathat h env errnoSave fuel filename atflags)) ↔
      ∀ i s, stateAt h env errnoSave atflags filename i = some s → HasRoom h env atflags s := by
  rw [returns_iff_defined, defined_iff_room]
  refine and_iff_left fun i j s _ _ _ hv => ?_
  obtain ⟨v, R⟩ := hv
  exact R.ne_nil (hno _ _ v R.value)

end

def selfFs : FileSystem :=
  { FileSystem.ofList [([['a']], .file)] (by decide) with
    attr := fun ℓ => if ℓ = [['a']] then some ("/a".toList ++ [nul]) else none }

deriving instance DecidableEq for Scan

set_option maxRecDepth 20000 in
theorem selfFs_again : orbit (after (selfFs.host [] fun _ => none) none none 0) (initial "/a".toList none) 4 =
    orbit (after (selfFs.host [] fun _ => none) none none 0) (initial "/a".toList none) 2 := by
  decide +kernel

/-- An attribute that names its own file is followed without end. -/
theorem realpathat_returns_never :
    ¬ ∃ fuel, Returns (realpathat (selfFs.host [] fun _ => none) none none fuel "/a".toList 0) := by
  rintro ⟨fuel, hr⟩
  have hl : "/a".toList.length < pathMax := by decide
  rw [realpathat_loop (by decide) hl] at hr
  have hne : loop (selfFs.host [] fun _ => none) none none 0 fuel (initial "/a".toList none) ≠ .unfinished := by
    intro hu
    rw [hu] at hr
    exact hr
  have hsome : (orbit (after (selfFs.host [] fun _ => none) none none 0) (initial "/a".toList none) 2).isSome := by
    decide +kernel
  obtain ⟨s, hs⟩ := Option.isSome_iff_exists.mp hsome
  exact hne (loop_unfinished_iff.mpr (orbit_ne_none_of_repeat (by decide : 2 < 4) hs (selfFs_again.trans hs) fuel))

end Iamroot
