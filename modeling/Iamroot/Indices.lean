import Iamroot.Bounds

/-!
# The indices over a whole walk

The states that a call of `__realpathat` goes through are an orbit. In each of
them the indices are in the arrays. A turn out of one of them keeps the unread
part and goes on in bounds where the texts that it puts on the stack have the
room that is below `p`; the function checks this for the text of a link, but
not for the text with the root directory before it.
-/

namespace Iamroot

open Orbit

section
variable (h : Host) (env : Option Str) (errnoSave : Option Errno) (atflags : Word)

def after (s : Scan) : Option Scan :=
  match turn h env errnoSave atflags s with
  | .next s => some (skipped s)
  | .restart s => some s
  | _ => none

def stateAt (filename : Str) (i : Nat) : Option Scan :=
  if strnlen filename (pathMax + 1) = 0 ∨ pathMax ≤ strnlen filename (pathMax + 1) then none
  else orbit (after h env errnoSave atflags) (initial filename errnoSave) i

/-- The values and the texts that are put on the stack have the room below `p`, the root directory included. -/
structure Roomy (s : Scan) : Prop where
  value : ∀ v, Redirects h atflags s v → 2 * v.length ≤ (copied s).p + 2
  text : ∀ t, Links h atflags s t → t.length < (copied s).p → (seen env t).length ≤ (copied s).p

def Refused (s : Scan) : Prop :=
  s.stack[s.p]? ≠ some '/' ∧ (component s = [] → s.checkDir = true) ∧ component s ≠ dot ∧ Overlong s ∨
  (∃ t, Links h atflags s t ∧ (copied s).p ≤ t.length) ∨
  (Asks atflags s ∧ ∃ v, getxattr h (addName s.output (component s)) (copied s).p = .ok v ∧ v.length = (copied s).p)

def Kept (s : Scan) : Turn Scan → Prop
  | .next s' => Passed s s'
  | .restart s' => ∃ pushed, Pushed s s' pushed
  | .leave s' => s' = s ∧ skipUps s.output.length s.nup 0 ≤ s.output.length
  | .fail _ => True
  | .fault => False

variable {h env errnoSave atflags} {s s' : Scan} {filename : Str}

theorem initial_inBounds (hl : filename.length < pathMax) (errno : Option Errno) : InBounds (initial filename errno) where
  size := by
    simp only [initial, List.length_append, List.length_replicate, List.length_singleton]
    omega
  ended := by
    have hlen : (List.replicate (pathMax - filename.length) nul ++ filename).length = pathMax := by
      rw [List.length_append, List.length_replicate]
      omega
    simp only [initial]
    rw [List.getElem?_append_right (by omega), hlen, Nat.sub_self]
    rfl
  p_le := Nat.sub_le _ _
  q_lt := by
    show 0 < pathMax
    decide
  cnt_lt := by
    show 0 < symloopMax
    decide
  dir := nofun
  ups := Or.inl rfl

theorem skipUps_le {q : Nat} : ∀ {n p : Nat}, p + 3 * n ≤ q + 1 → p ≤ q → skipUps q n p ≤ q
  | 0, _, _, hp => hp
  | n + 1, p, hn, hp => by
    rw [skipUps]
    split
    · exact skipUps_le (by omega) (by omega)
    · exact skipUps_le (by omega) (by omega)

theorem after_next (ht : turn h env errnoSave atflags s = .next s') : after h env errnoSave atflags s = some (skipped s') := by
  rw [after, ht]

theorem after_restart (ht : turn h env errnoSave atflags s = .restart s') : after h env errnoSave atflags s = some s' := by
  rw [after, ht]

/-! ## One turn -/

theorem turn_redirects (B : InBounds s) {v : Str} (R : Redirects h atflags s v) :
    turn h env errnoSave atflags s = .fault ∧ ¬ 2 * v.length ≤ (copied s).p + 2 ∨
      ∃ s', turn h env errnoSave atflags s = .restart s' ∧ Pushed s s' v.dropLast ∧ s'.cnt = s.cnt := by
  rw [turn_asks h env errnoSave B R.toAsks]
  by_cases hl : 2 * v.length ≤ (copied s).p + 2
  · exact Or.inr (R.pushed B hl)
  · exact Or.inl ⟨R.overlaps hl, hl⟩

/-- Whatever the host answers, the indices stay in the arrays. -/
theorem after_inBounds (B : InBounds s) (ha : after h env errnoSave atflags s = some s') : InBounds s' := by
  have hnext : ∀ {s₁}, turn h env errnoSave atflags s = .next s₁ → Passed s s₁ → InBounds s' := by
    intro s₁ ht P
    rw [after_next ht] at ha
    obtain rfl := Option.some.inj ha
    exact P.bounds.skipped
  have hrestart : ∀ {s₁}, turn h env errnoSave atflags s = .restart s₁ → InBounds s₁ → InBounds s' := by
    intro s₁ ht B₁
    rw [after_restart ht] at ha
    obtain rfl := Option.some.inj ha
    exact B₁
  have hend : ∀ {T}, turn h env errnoSave atflags s = T → (∀ s₁, T ≠ .next s₁ ∧ T ≠ .restart s₁) → InBounds s' := by
    intro T ht hT
    unfold after at ha
    split at ha
    · rename_i s₁ hs
      exact absurd (ht.symm.trans hs) (hT s₁).1
    · rename_i s₁ hs
      exact absurd (ht.symm.trans hs) (hT s₁).2
    · cases ha
  rcases turn_cases B with A | ⟨s₁, ht, P⟩ | ht | ⟨e, ht⟩
  · rcases asks_cases B A with ⟨v, R⟩ | ⟨s₁, ht, P⟩ | ⟨e, ht⟩ | ⟨t, x, L, hl, hx, hc, ht⟩
    · rcases turn_redirects B R with ⟨ht, -⟩ | ⟨s₁, ht, P, -⟩
      · exact hend ht fun _ => ⟨nofun, nofun⟩
      · exact hrestart ht P.bounds
    · exact hnext ht P
    · exact hend ht fun _ => ⟨nofun, nofun⟩
    · have X : InBounds x := by
        obtain ⟨e, rfl⟩ := hx
        exact { copied_inBounds B with }
      rcases followLink_bounds X L.ne_nil hc ht with hf | ⟨s₁, hs, B₁, -⟩
      · exact hend hf fun _ => ⟨nofun, nofun⟩
      · exact hrestart hs B₁
  · exact hnext ht P
  · exact hend ht fun _ => ⟨nofun, nofun⟩
  · exact hend ht fun _ => ⟨nofun, nofun⟩

theorem turn_kept (B : InBounds s) (R : Roomy h env atflags s) : Kept s (turn h env errnoSave atflags s) := by
  rcases turn_cases B with A | ⟨s₁, ht, P⟩ | ht | ⟨e, ht⟩
  · rcases asks_cases B A with ⟨v, V⟩ | ⟨s₁, ht, P⟩ | ⟨e, ht⟩ | ⟨t, x, L, hl, hx, hc, ht⟩
    · rcases turn_redirects B V with ⟨-, hl⟩ | ⟨s₁, ht, P, -⟩
      · exact absurd (R.value v V) hl
      · rw [ht]
        exact ⟨_, P⟩
    · rw [ht]
      exact P
    · rw [ht]
      trivial
    · obtain ⟨s₁, hf, P, -⟩ := L.pushed B hx hc (R.text t L hl)
      rw [ht, hf]
      exact ⟨_, P⟩
  · rw [ht]
    exact P
  · rw [ht]
    exact ⟨rfl, skipUps_le (by have := B.ups.le; omega) (Nat.zero_le _)⟩
  · rw [ht]
    trivial

theorem leave_eq (B : InBounds s) (ht : turn h env errnoSave atflags s = .leave s') : s' = s := by
  rcases turn_cases B with A | ⟨_, hn, -⟩ | hn | ⟨_, hn⟩
  · rcases asks_cases B A with ⟨v, R⟩ | ⟨_, hn, -⟩ | ⟨_, hn⟩ | ⟨t, x, L, -, hx, hc, hn⟩
    · rcases turn_redirects B R with ⟨hn, -⟩ | ⟨_, hn, -⟩
      · cases ht.symm.trans hn
      · cases ht.symm.trans hn
    · cases ht.symm.trans hn
    · cases ht.symm.trans hn
    · have X : InBounds x := by
        obtain ⟨e, rfl⟩ := hx
        exact { copied_inBounds B with }
      rcases followLink_bounds X L.ne_nil hc hn with hf | ⟨_, hf, -⟩
      · cases ht.symm.trans hf
      · cases ht.symm.trans hf
  · cases ht.symm.trans hn
  · exact Turn.leave.inj (ht.symm.trans hn)
  · cases ht.symm.trans hn

theorem turn_refused (B : InBounds s) (hr : Refused h atflags s) :
    turn h env errnoSave atflags s = .fail .ENAMETOOLONG := by
  rcases hr with ⟨h0, h1, h2, h3⟩ | ⟨t, L, hl⟩ | ⟨A, v, hv, hl⟩
  · have h1' : ¬ (component s = [] ∧ s.checkDir = false) := by
      rintro ⟨hc, hd⟩
      rw [h1 hc] at hd
      cases hd
    rw [turn_eq h env errnoSave atflags B, if_neg h0, if_neg h1', if_neg h2, if_pos h3]
  · have hpos := copied_pos B L.toCopies
    have hread : ∀ e, readlinkTurn h env errnoSave { copied s with errno := e } (piece s.output (component s))
        (component s).length (component s = dotdot) = .fail .ENAMETOOLONG := by
      intro e
      have hrl : readlink h ((copied s).output ++ piece s.output (component s)) (copied s).p = .ok (t.take (copied s).p) := by
        have ht : h.readlink ((copied s).output ++ piece s.output (component s)) = .ok t := L.text
        rw [readlink, if_neg (by omega), ht]
        rfl
      rw [readlinkTurn]
      dsimp only
      rw [hrl]
      dsimp only
      rw [if_pos (by rw [List.length_take]; omega)]
    rw [turn_asks h env errnoSave B L.toAsks, getxattrTurn]
    cases hv : getxattr h (addName s.output (component s)) (copied s).p with
    | error e =>
      have hv' : getxattr h ((copied s).output ++ piece s.output (component s)) (copied s).p = .error e := hv
      rw [hv']
      exact hread _
    | ok v =>
      have hv' : getxattr h ((copied s).output ++ piece s.output (component s)) (copied s).p = .ok v := hv
      obtain rfl := L.noValue v hv
      rw [hv']
      dsimp only [List.length_nil]
      rw [if_neg (by omega), if_pos rfl]
      exact hread _
  · have hv' : getxattr h ((copied s).output ++ piece s.output (component s)) (copied s).p = .ok v := hv
    rw [turn_asks h env errnoSave B A, getxattrTurn, hv']
    exact if_pos hl

/-! ## When a turn is not defined -/

variable (h env atflags) in
/-- The value of an attribute does not overlap its copy, and of the text of a link nothing but slashes reaches the unread part. -/
structure HasRoom (s : Scan) : Prop where
  value : ∀ v, Redirects h atflags s v → 2 * v.length ≤ (copied s).p + 2
  text : ∀ t, Links h atflags s t → t.length < (copied s).p → s.cnt + 1 ≠ symloopMax →
    (seen env t).length ≤ pathMax ∧ ∀ c ∈ (seen env t).drop (copied s).p, c = '/'

theorem Roomy.hasRoom (B : InBounds s) (R : Roomy h env atflags s) : HasRoom h env atflags s where
  value := R.value
  text t L hl _ := by
    have hseen := R.text t L hl
    refine ⟨Nat.le_trans hseen (copied_inBounds B).p_le, ?_⟩
    rw [List.drop_eq_nil_of_le hseen]
    exact fun c hc => absurd hc List.not_mem_nil

theorem slashLen_append_lt_iff {a : Str} (b : Str) : slashLen (a ++ b) < a.length ↔ ¬ ∀ c ∈ a, c = '/' := by
  have hall : (∀ c ∈ a, c = '/') ↔ (a.takeWhile (· = '/')).length = a.length := by
    refine ⟨fun h => ?_, fun h c hc => ?_⟩
    · rw [List.takeWhile_eq_self_iff.mpr fun c hc => decide_eq_true (h c hc)]
    · have hself := List.IsPrefix.eq_of_length (List.takeWhile_prefix _) h
      exact of_decide_eq_true (List.takeWhile_eq_self_iff.mp hself c hc)
  have hle := (List.takeWhile_prefix (l := a) (· = '/')).length_le
  rw [hall, slashLen, List.takeWhile_append]
  split
  · rename_i h
    rw [List.length_append]
    exact iff_of_false (by omega) (not_not_intro h)
  · rename_i h
    exact iff_of_true (by omega) h

theorem followLink_fault_iff {x : Scan} (X : InBounds x) {t : Str} (ht : t ≠ []) : followLink env x t = .fault ↔
    ¬ ((seen env t).length ≤ pathMax ∧ ∀ c ∈ (seen env t).drop x.p, c = '/') := by
  have hsz := X.size
  have hpos := List.length_pos_of_ne_nil ht
  obtain ⟨root, hroot⟩ : ∃ root, root =
    if isAbs t && inchroot env then (getrootdir env).take (strlen (getrootdir env)) else [] := ⟨_, rfl⟩
  have hseen : seen env t = root ++ t := by rw [hroot]; rfl
  unfold followLink
  simp only [← hroot]
  have hsum : (root ++ t).length = root.length + t.length := List.length_append
  rw [hseen, hsum]
  split
  · rename_i hk
    rw [List.length_append, List.length_drop, hsz] at hk
    exact iff_of_true rfl fun h => by omega
  · rename_i hk
    rw [List.length_append, List.length_drop, hsz] at hk
    have hlen : root.length + t.length ≤ pathMax := by omega
    have hstack : root ++ (t ++ x.stack.drop t.length).take t.length ++
        (t ++ x.stack.drop t.length).drop (root.length + t.length) = root ++ t ++ x.stack.drop (root.length + t.length) := by
      rw [List.take_left, List.drop_append, List.drop_eq_nil_of_le (by omega), List.nil_append, List.drop_drop]
      congr 2
      omega
    rw [hstack]
    have hlast : (root ++ t ++ x.stack.drop (root.length + t.length))[root.length + t.length - 1]? = (root ++ t).getLast? := by
      rw [List.getElem?_append_left (by omega), List.getLast?_eq_getElem?, hsum]
    rw [hlast]
    have hfault : ∀ {p : Nat} {s₁ : Scan}, (if p < root.length + t.length then Turn.fault else .restart s₁) = .fault ↔
        p < root.length + t.length := by
      intro p s₁
      split
      · exact iff_of_true rfl ‹_›
      · exact iff_of_false (by simp) ‹_›
    rw [hfault, and_iff_right hlen]
    by_cases hle : root.length + t.length ≤ x.p
    · rw [List.drop_eq_nil_of_le (hsum.trans_le hle)]
      refine iff_of_false ?_ (not_not_intro fun c hc => absurd hc List.not_mem_nil)
      split <;> omega
    · have hdrop : (root ++ t ++ x.stack.drop (root.length + t.length)).drop x.p =
          (root ++ t).drop x.p ++ x.stack.drop (root.length + t.length) :=
        List.drop_append_of_le_length (by omega)
      have hrest : ((root ++ t).drop x.p).length = root.length + t.length - x.p := by rw [List.length_drop, hsum]
      split
      · rw [hdrop, ← slashLen_append_lt_iff (x.stack.drop (root.length + t.length)), hrest]
        omega
      · rename_i hno
        refine iff_of_true (by omega) fun hall => hno ?_
        have hne : (root ++ t).drop x.p ≠ [] := List.ne_nil_of_length_pos (by omega)
        rw [← List.take_append_drop x.p (root ++ t), List.getLast?_append_of_ne_nil _ hne]
        rw [List.getLast?_eq_some_getLast hne, hall _ (List.getLast_mem hne)]

variable (h env errnoSave) in
theorem turn_links (B : InBounds s) {t : Str} (L : Links h atflags s t) (hl : t.length < (copied s).p)
    (hc : s.cnt + 1 ≠ symloopMax) :
    ∃ x, (∃ e, x = { copied s with errno := e }) ∧ turn h env errnoSave atflags s = followLink env x t := by
  have hpos := List.length_pos_of_ne_nil L.ne_nil
  have hread : ∀ e, readlinkTurn h env errnoSave { copied s with errno := e } (piece s.output (component s))
      (component s).length (component s = dotdot) = followLink env { copied s with errno := e } t := by
    intro e
    have hrl : readlink h ((copied s).output ++ piece s.output (component s)) (copied s).p = .ok t := by
      have ht : h.readlink ((copied s).output ++ piece s.output (component s)) = .ok t := L.text
      rw [readlink, if_neg (by omega), ht, Except.map, List.take_of_length_le (Nat.le_of_lt hl)]
    rw [readlinkTurn]
    dsimp only
    rw [hrl]
    dsimp only
    rw [if_neg (Nat.ne_of_lt hl), if_neg (Nat.ne_of_gt hpos)]
    exact if_neg hc
  rw [turn_asks h env errnoSave B L.toAsks, getxattrTurn]
  cases hv : getxattr h (addName s.output (component s)) (copied s).p with
  | error e =>
    have hv' : getxattr h ((copied s).output ++ piece s.output (component s)) (copied s).p = .error e := hv
    rw [hv']
    exact ⟨_, ⟨errnoSave, rfl⟩, hread _⟩
  | ok v =>
    have hv' : getxattr h ((copied s).output ++ piece s.output (component s)) (copied s).p = .ok v := hv
    obtain rfl := L.noValue v hv
    rw [hv']
    dsimp only [List.length_nil]
    rw [if_neg (by omega), if_pos rfl]
    exact ⟨_, ⟨(copied s).errno, rfl⟩, hread _⟩

variable (h env errnoSave) in
/-- A turn is defined exactly when it has the room. -/
theorem turn_fault_iff (B : InBounds s) : turn h env errnoSave atflags s = .fault ↔ ¬ HasRoom h env atflags s := by
  have hX : ∀ x : Scan, (∃ e, x = { copied s with errno := e }) → InBounds x ∧ x.p = (copied s).p ∧ x.cnt = s.cnt := by
    intro x hx
    obtain ⟨e, rfl⟩ := hx
    exact ⟨{ copied_inBounds B with }, rfl, rfl⟩
  constructor
  · intro hf R
    rcases turn_cases B with A | ⟨_, ht, -⟩ | ht | ⟨_, ht⟩
    · rcases asks_cases B A with ⟨v, V⟩ | ⟨_, ht, -⟩ | ⟨_, ht⟩ | ⟨t, x, L, hl, hx, hc, ht⟩
      · rcases turn_redirects B V with ⟨-, hv⟩ | ⟨_, ht, -⟩
        · exact hv (R.value v V)
        · cases hf.symm.trans ht
      · cases hf.symm.trans ht
      · cases hf.symm.trans ht
      · obtain ⟨X, hp, hcnt⟩ := hX x hx
        refine (followLink_fault_iff X L.ne_nil).mp (ht.symm.trans hf) ?_
        rw [hp]
        exact R.text t L hl (by omega)
    · cases hf.symm.trans ht
    · cases hf.symm.trans ht
    · cases hf.symm.trans ht
  · intro hno
    by_contra hf
    refine hno ⟨fun v V => ?_, fun t L hl hc => ?_⟩
    · by_contra hv
      exact hf ((turn_asks h env errnoSave B V.toAsks).trans (V.overlaps hv))
    · obtain ⟨x, hx, ht⟩ := turn_links h env errnoSave B L hl hc
      obtain ⟨X, hp, -⟩ := hX x hx
      by_contra hroom
      refine hf (ht.trans ((followLink_fault_iff X L.ne_nil).mpr ?_))
      rw [hp]
      exact hroom

/-! ## The call -/

theorem stateAt_inBounds {i : Nat} (hs : stateAt h env errnoSave atflags filename i = some s) : InBounds s := by
  unfold stateAt at hs
  split at hs
  · cases hs
  · rename_i hl
    have hlen : filename.length < pathMax := by
      unfold strnlen at hl
      omega
    exact orbit_inv (initial_inBounds hlen errnoSave) (fun _ _ => after_inBounds) hs

theorem stateAt_of_short (h0 : filename ≠ []) (hl : filename.length < pathMax) (i : Nat) :
    stateAt h env errnoSave atflags filename i = orbit (after h env errnoSave atflags) (initial filename errnoSave) i := by
  have := List.length_pos_of_ne_nil h0
  apply if_neg
  unfold strnlen
  omega

/-- What the loop returns is said by the last turn. -/
theorem loop_result : ∀ {n : Nat} {s : Scan}, loop h env errnoSave atflags n s ≠ .unfinished →
    ∃ i a, orbit (after h env errnoSave atflags) s i = some a ∧ after h env errnoSave atflags a = none ∧
      ((∃ s', turn h env errnoSave atflags a = .leave s' ∧ loop h env errnoSave atflags n s = .done s') ∨
        (∃ e, turn h env errnoSave atflags a = .fail e ∧ loop h env errnoSave atflags n s = .fail e) ∨
        (turn h env errnoSave atflags a = .fault ∧ loop h env errnoSave atflags n s = .fault))
  | 0, s, hne => absurd rfl hne
  | n + 1, s, hne => by
    rw [loop] at hne ⊢
    cases ht : turn h env errnoSave atflags s with
    | next s' =>
      rw [ht] at hne
      obtain ⟨i, a, ha, hend, hr⟩ := loop_result (n := n) hne
      exact ⟨i + 1, a, by rw [orbit_succ' (after_next ht)]; exact ha, hend, hr⟩
    | restart s' =>
      rw [ht] at hne
      obtain ⟨i, a, ha, hend, hr⟩ := loop_result (n := n) hne
      exact ⟨i + 1, a, by rw [orbit_succ' (after_restart ht)]; exact ha, hend, hr⟩
    | leave s' => exact ⟨0, s, rfl, by rw [after, ht], Or.inl ⟨s', ht, rfl⟩⟩
    | fail e => exact ⟨0, s, rfl, by rw [after, ht], Or.inr (Or.inl ⟨e, ht, rfl⟩)⟩
    | fault => exact ⟨0, s, rfl, by rw [after, ht], Or.inr (Or.inr ⟨ht, rfl⟩)⟩

theorem spliced_cases (cwd rest : Str) {R : Ret Str}
    (hR : R = if pathMax ≤ cwd.length + rest.length + 1 then .fail .ENAMETOOLONG else .done (cwd ++ rest)) :
    (∃ e, R = .fail e) ∨ ∃ path, R = .done path ∧ path.length < pathMax := by
  split at hR
  · exact Or.inl ⟨_, hR⟩
  · refine Or.inr ⟨_, hR, ?_⟩
    rw [List.length_append]
    omega

theorem absolute_cases (s : Scan) (hq : s.output.length < pathMax) :
    (∃ e, absolute h s = .fail e) ∨ ∃ path, absolute h s = .done path ∧ path.length < pathMax := by
  unfold absolute
  split
  · exact Or.inr ⟨_, rfl, hq⟩
  split
  · exact Or.inl ⟨_, rfl⟩
  split
  · exact Or.inl ⟨_, rfl⟩
  exact spliced_cases _ _ rfl

variable (h env errnoSave atflags filename) in
/-- A call is refused, or does not end in time, or ends with the turn of a state that it comes to. -/
theorem realpathat_cases (fuel : Nat) :
    (∃ e, realpathat h env errnoSave fuel filename atflags = .fail e) ∨
    realpathat h env errnoSave fuel filename atflags = .unfinished ∨
    (∃ path, realpathat h env errnoSave fuel filename atflags = .done path ∧ path.length < pathMax) ∨
    (realpathat h env errnoSave fuel filename atflags = .fault ∧
      ∃ i s, stateAt h env errnoSave atflags filename i = some s ∧ turn h env errnoSave atflags s = .fault) := by
  unfold realpathat
  dsimp only
  split
  · exact Or.inl ⟨_, rfl⟩
  rename_i h0
  split
  · exact Or.inl ⟨_, rfl⟩
  rename_i hl
  have hst : ∀ i, stateAt h env errnoSave atflags filename i =
      orbit (after h env errnoSave atflags) (initial filename errnoSave) i := by
    intro i
    apply if_neg
    rw [not_or]
    exact ⟨h0, hl⟩
  by_cases hu : loop h env errnoSave atflags fuel (initial filename errnoSave) = .unfinished
  · rw [hu]
    exact Or.inr (Or.inl rfl)
  obtain ⟨i, a, ha, -, ⟨s', ht, hr⟩ | ⟨e, -, hr⟩ | ⟨ht, hr⟩⟩ := loop_result hu
  · rw [hr]
    have A := stateAt_inBounds ((hst i).trans ha)
    obtain rfl := leave_eq A ht
    rcases absolute_cases (h := h) s' A.q_lt with ⟨e, he⟩ | ⟨path, hp, hlen⟩
    · exact Or.inl ⟨e, he⟩
    · exact Or.inr (Or.inr (Or.inl ⟨path, hp, hlen⟩))
  · rw [hr]
    exact Or.inl ⟨e, rfl⟩
  · rw [hr]
    exact Or.inr (Or.inr (Or.inr ⟨rfl, i, a, (hst i).trans ha, ht⟩))

variable (h env errnoSave atflags filename) in
/-- In every state of a walk the indices are in the arrays, and a turn out of it that is not
refused keeps the unread part where there is room for what it puts there. -/
theorem walk_indices :
    (∀ i s, stateAt h env errnoSave atflags filename i = some s → InBounds s ∧
      (Refused h atflags s → turn h env errnoSave atflags s = .fail .ENAMETOOLONG) ∧
      (Roomy h env atflags s → Kept s (turn h env errnoSave atflags s))) ∧
    (∀ fuel path, realpathat h env errnoSave fuel filename atflags = .done path → path.length < pathMax) ∧
    ((∀ i s, stateAt h env errnoSave atflags filename i = some s → Roomy h env atflags s) →
      ∀ fuel, realpathat h env errnoSave fuel filename atflags ≠ .fault) := by
  refine ⟨fun i s hs => ?_, fun fuel path hd => ?_, fun hroom fuel hf => ?_⟩
  · have B := stateAt_inBounds hs
    exact ⟨B, turn_refused B, turn_kept B⟩
  · rcases realpathat_cases h env errnoSave atflags filename fuel with ⟨e, he⟩ | hu | ⟨p, hp, hlen⟩ | ⟨hf, -⟩
    · cases hd.symm.trans he
    · cases hd.symm.trans hu
    · rw [Ret.done.inj (hd.symm.trans hp)]
      exact hlen
    · cases hd.symm.trans hf
  · rcases realpathat_cases h env errnoSave atflags filename fuel with ⟨e, he⟩ | hu | ⟨p, hp, -⟩ | ⟨-, i, s, hs, ht⟩
    · cases hf.symm.trans he
    · cases hf.symm.trans hu
    · cases hf.symm.trans hp
    · have K : Kept s (turn h env errnoSave atflags s) := turn_kept (stateAt_inBounds hs) (hroom i s hs)
      rw [ht] at K
      exact K

end

def longLink : Str := List.replicate 4094 '/' ++ ['a']

def longLinkFs : FileSystem :=
  .ofList [([['r']], .dir), ([['l'], ['r']], .link longLink)] (by decide +kernel)

/-- The text passes the check on its length, and the root directory then puts it over the unread part. -/
theorem walk_indices_overrun : longLink.length < pathMax ∧ ∃ i s,
    stateAt (longLinkFs.host [] fun _ => none) (some "/r".toList) none 0 "/r/l".toList i = some s ∧
    ¬ Kept s (turn (longLinkFs.host [] fun _ => none) (some "/r".toList) none 0 s) := by
  have hf : realpathat (longLinkFs.host [] fun _ => none) (some "/r".toList) none 4 "/r/l".toList 0 = .fault := by
    decide +kernel
  refine ⟨by decide +kernel, ?_⟩
  rcases realpathat_cases _ _ _ _ _ 4 with ⟨e, he⟩ | hu | ⟨p, hp, -⟩ | ⟨-, i, s, hs, ht⟩
  · cases hf.symm.trans he
  · cases hf.symm.trans hu
  · cases hf.symm.trans hp
  · refine ⟨i, s, hs, ?_⟩
    rw [ht]
    exact not_false

end Iamroot
