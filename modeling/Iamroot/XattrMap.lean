import Iamroot.Xattr

/-!
# The attributes as the guest sees them

A name of the guest stands for the attribute `user.iamroot.` followed by its
bare part, so two names meet when their bare parts are the same. A call touches
one attribute of one file, and none outside the prefix. What a listing shows of
an attribute under the prefix reads that attribute, unless it begins with the
prefix again; the attributes of the host are shown by their own names.
-/

namespace Iamroot

def bare (g : Str) : Str := if xattrsPrefix <+: g then g.drop xattrsPrefix.length else g

def shown (k : Str) : Option Str :=
  if xattrsPrefix <+: k then (if bare k = [] then none else some (bare k)) else some k

def namesIn : Str → List Str
  | [] => []
  | c :: l =>
    if c = nul then [] :: namesIn l
    else
      match namesIn l with
      | [] => [[c]]
      | n :: ns => (c :: n) :: ns

theorem strneq_isPrefix (g : Str) : strneq g xattrsPrefix xattrsPrefix.length = true ↔ xattrsPrefix <+: g := by
  rw [strneq, List.take_length, beq_iff_eq]
  exact take_length_prefix

@[simp] theorem bare_append (n : Str) : bare (xattrsPrefix ++ n) = n := by simp [bare]

theorem bare_of_not {g : Str} (h : ¬ xattrsPrefix <+: g) : bare g = g := if_neg h

theorem append_bare {g : Str} (h : xattrsPrefix <+: g) : xattrsPrefix ++ bare g = g := by
  obtain ⟨n, rfl⟩ := h
  rw [bare_append]

theorem xattrName_ok {siz : Nat} {g n : Str} (h : xattrName siz g = .ok n) : n = xattrsPrefix ++ bare g := by
  unfold xattrName at h
  split at h
  next hp =>
    cases h
    exact (append_bare ((strneq_isPrefix _).mp hp)).symm
  next hp =>
    rw [strneq_isPrefix] at hp
    unfold snprintf at h
    split at h
    · cases h
      rw [bare_of_not hp]
    · cases h

theorem xattrName_of_short {siz : Nat} {g : Str} (h : (xattrsPrefix ++ bare g).length < siz) :
    xattrName siz g = .ok (xattrsPrefix ++ bare g) := by
  unfold xattrName
  split
  next hp => rw [append_bare ((strneq_isPrefix g).mp hp)]
  next hp =>
    rw [strneq_isPrefix] at hp
    rw [bare_of_not hp] at h ⊢
    exact if_pos h

/-! ## One call -/

@[simp] theorem Xattrs.lookup_insert (x : Xattrs) (n value : Str) (h : ValidXattr n) :
    (x.insert n value h).lookup n = some value := AList.lookup_insert _

theorem Xattrs.lookup_insert_ne (x : Xattrs) {n m : Str} (value : Str) (h : ValidXattr n) (hm : m ≠ n) :
    (x.insert n value h).lookup m = x.lookup m := AList.lookup_insert_ne hm

theorem Xattrs.lookup_erase_ne (x : Xattrs) {n m : Str} (hm : m ≠ n) : (x.erase n).lookup m = x.lookup m :=
  AList.lookup_erase_ne hm

theorem Xattrs.lookup_of_mem {x : Xattrs} {n : Str} (h : n ∈ x.keys) : ∃ value, x.lookup n = some value :=
  Option.isSome_iff_exists.mp (AList.lookup_isSome.mpr h)

theorem Xattrs.valid_of_mem {x : Xattrs} {n : Str} (h : n ∈ x.keys) : ValidXattr n := x.valid n h

section
variable {resolve : XattrResolve} {fs fs' : XattrFiles} {a : XattrArg} {name value : Str} {flags : Word}
  {v : Option Errno} {i : Nat}

theorem nextSetxattr_cases (fs : XattrFiles) (i : Nat) (name value : Str) (flags : Word) (v : Option Errno) :
    (nextSetxattr fs i name value flags v).1 = fs ∧ (nextSetxattr fs i name value flags v).2 ≠ .ok () ∨
    ∃ h, nextSetxattr fs i name value flags v = (fs.put i ((fs.xattrs i).insert name value h), .ok ()) := by
  unfold nextSetxattr
  cases v with
  | some e => exact .inl ⟨rfl, nofun⟩
  | none =>
    by_cases h : ValidXattr name
    · simp only [h, ↓reduceDIte]
      split
      · simp
      · split
        · simp
        · split
          · simp
          · exact .inr ⟨trivial, rfl⟩
    · simp [h]

/-- What a successful `setxattr` leaves. -/
theorem setxattr_ok (h : XattrArg.setxattr resolve fs a name value flags v = (fs', .ok ())) :
    ∃ i hv, a.file resolve fs = .ok i ∧ fs' = fs.put i ((fs.xattrs i).insert (xattrsPrefix ++ bare name) value hv) := by
  unfold XattrArg.setxattr at h
  split at h
  · cases h
  · cases h
  next i n hf hn =>
    obtain rfl := xattrName_ok hn
    rcases nextSetxattr_cases fs i (xattrsPrefix ++ bare name) value flags v with ⟨-, hno⟩ | ⟨hv, heq⟩
    · rw [h] at hno
      exact absurd rfl hno
    · rw [h] at heq
      exact ⟨i, hv, hf, (Prod.mk.inj heq).1⟩

theorem getxattr_some (hf : a.file resolve fs = .ok i)
    (h : (fs.xattrs i).lookup (xattrsPrefix ++ bare name) = some value) {size : Nat} (hs : value.length ≤ size) :
    XattrArg.getxattr resolve fs a name size none = .ok (value.length, value) := by
  have hv : ValidXattr (xattrsPrefix ++ bare name) :=
    (fs.xattrs i).valid _ (AList.lookup_isSome.mp (Option.isSome_of_eq_some h))
  have hn : xattrName (xattrNameMax + 1) name = .ok (xattrsPrefix ++ bare name) :=
    xattrName_of_short (Nat.lt_succ_of_le hv.2.2)
  have hget : nextGetxattr fs i (xattrsPrefix ++ bare name) size none = .ok (value.length, value) := by
    simp only [nextGetxattr, if_pos hv, h]
    split
    next h0 =>
      obtain rfl : value = [] := List.eq_nil_of_length_eq_zero (by omega)
      rfl
    next => rw [if_neg (by omega)]
  simp only [XattrArg.getxattr, hf, hn]
  exact hget

end

/-! ## Runs -/

inductive XattrCall where
  | setxattr (a : XattrArg) (name value : Str) (flags : Word)
  | getxattr (a : XattrArg) (name : Str) (size : Nat)
  | removexattr (a : XattrArg) (name : Str)
  | listxattr (a : XattrArg)

/-- The files after a call; the host refuses it with the error that comes with it. -/
def xattrStep (resolve : XattrResolve) (fs : XattrFiles) : XattrCall × Option Errno → XattrFiles
  | (.setxattr a name value flags, v) => (XattrArg.setxattr resolve fs a name value flags v).1
  | (.removexattr a name, v) => (XattrArg.removexattr resolve fs a name v).1
  | (.getxattr .., _) | (.listxattr _, _) => fs

def Spares (resolve : XattrResolve) (i : Nat) (n : Str) (fs : XattrFiles) : XattrCall × Option Errno → Prop
  | (.setxattr a name _ _, _) | (.removexattr a name, _) => a.file resolve fs = .ok i → xattrsPrefix ++ bare name ≠ n
  | (.getxattr .., _) | (.listxattr _, _) => True

section
variable {resolve : XattrResolve} {fs : XattrFiles} {i j : Nat} {n m : Str}

theorem lookup_put {x : Xattrs} (h : i = j → n ≠ m) (hx : n ≠ m → x.lookup n = (fs.xattrs j).lookup n) :
    ((fs.put j x).xattrs i).lookup n = (fs.xattrs i).lookup n := by
  by_cases hij : i = j
  · subst hij
    simp [XattrFiles.put, hx (h rfl)]
  · simp [XattrFiles.put, Function.update_of_ne hij]

/-- What a call spares, it leaves as it was. -/
theorem xattrStep_spares {c : XattrCall × Option Errno} (h : Spares resolve i n fs c) :
    ((xattrStep resolve fs c).xattrs i).lookup n = (fs.xattrs i).lookup n := by
  obtain ⟨c, v⟩ := c
  cases c with
  | getxattr a name size => rfl
  | listxattr a => rfl
  | setxattr a name value flags =>
    simp only [xattrStep, XattrArg.setxattr]
    split
    · rfl
    · rfl
    next j k hf hk =>
      obtain rfl := xattrName_ok hk
      rcases nextSetxattr_cases fs j (xattrsPrefix ++ bare name) value flags v with ⟨he, -⟩ | ⟨hv, he⟩
      · rw [he]
      · rw [he]
        refine lookup_put ?_ fun hn => Xattrs.lookup_insert_ne _ _ _ hn
        intro hij
        subst hij
        exact (h hf).symm
  | removexattr a name =>
    simp only [xattrStep, XattrArg.removexattr]
    split
    · rfl
    · rfl
    next j k hf hk =>
      obtain rfl := xattrName_ok hk
      have hne : i = j → n ≠ xattrsPrefix ++ bare name := by
        intro hij
        subst hij
        exact (h hf).symm
      unfold nextRemovexattr
      cases v with
      | some e => rfl
      | none =>
        dsimp only
        split
        · split
          · exact lookup_put hne fun hn => Xattrs.lookup_erase_ne _ hn
          · rfl
        · rfl

theorem lookup_run (l : List (XattrCall × Option Errno))
    (h : Run.Meets (xattrStep resolve) (Spares resolve i n) fs l) :
    ((Run.exec (xattrStep resolve) fs l).xattrs i).lookup n = (fs.xattrs i).lookup n :=
  Run.Meets.inv (I := fun s => (s.xattrs i).lookup n = (fs.xattrs i).lookup n)
    (fun _ _ hs hc => (xattrStep_spares hc).trans hs) l fs rfl h

/-- No run touches an attribute of the host that is not under the prefix. -/
theorem native_run (hn : ¬ xattrsPrefix <+: n) (l : List (XattrCall × Option Errno)) :
    ((Run.exec (xattrStep resolve) fs l).xattrs i).lookup n = (fs.xattrs i).lookup n := by
  have hne : ∀ g : Str, xattrsPrefix ++ bare g ≠ n := by
    intro g hg
    exact hn (hg ▸ List.prefix_append _ _)
  have hstep : ∀ (s : XattrFiles) (c : XattrCall × Option Errno), Spares resolve i n s c := by
    intro s c
    obtain ⟨c, v⟩ := c
    cases c with
    | getxattr a name size => trivial
    | listxattr a => trivial
    | setxattr a name value flags => exact fun _ => hne name
    | removexattr a name => exact fun _ => hne name
  induction l generalizing fs with
  | nil => rfl
  | cons c l ih => rw [Run.exec, ih, xattrStep_spares (hstep fs c)]

end

/-! ## Listings -/

theorem terminated_cons (n : Str) (ns : List Str) : terminated (n :: ns) = n ++ nul :: terminated ns := by
  simp [terminated]

theorem terminated_append (ns ms : List Str) : terminated (ns ++ ms) = terminated ns ++ terminated ms := by
  simp [terminated]

theorem namesIn_append {n : Str} (h : nul ∉ n) (l : Str) : namesIn (n ++ nul :: l) = n :: namesIn l := by
  induction n with
  | nil => simp [namesIn]
  | cons c n ih =>
    have hc : c ≠ nul := fun hc => h (hc ▸ List.mem_cons_self)
    have ih := ih fun hn => h (List.mem_cons_of_mem _ hn)
    simp [namesIn, hc, ih]

theorem namesIn_terminated {ns : List Str} (h : ∀ n ∈ ns, nul ∉ n) : namesIn (terminated ns) = ns := by
  induction ns with
  | nil => rfl
  | cons n ns ih =>
    rw [terminated_cons, namesIn_append (h n List.mem_cons_self), ih fun m hm => h m (List.mem_cons_of_mem _ hm)]

theorem terminated_shown (list : Str) {k : Str} (hk : k ≠ []) :
    (if k.length ≠ (if strneq k xattrsPrefix xattrsPrefix.length then xattrsPrefix.length else 0)
      then list ++ k.drop (if strneq k xattrsPrefix xattrsPrefix.length then xattrsPrefix.length else 0) ++ [nul]
      else list) = list ++ terminated (shown k).toList := by
  by_cases hp : xattrsPrefix <+: k
  · obtain ⟨n, rfl⟩ := hp
    have hs : strneq (xattrsPrefix ++ n) xattrsPrefix xattrsPrefix.length = true :=
      (strneq_isPrefix _).mpr (List.prefix_append _ _)
    cases n with
    | nil =>
      have hb : bare xattrsPrefix = [] := bare_append []
      simp only [List.append_nil] at hs
      simp [hs, shown, terminated, hb]
    | cons c n => simp [hs, shown, terminated]
  · have hs : strneq k xattrsPrefix xattrsPrefix.length = false := by
      rw [← Bool.not_eq_true, strneq_isPrefix]
      exact hp
    simp [hs, shown, terminated, hp, hk]

theorem read_name {xbuf n : Str} {ns : List Str} {i xsize : Nat} (hnul : nul ∉ n) (hd : xbuf.drop i = terminated (n :: ns) ++ [nul])
    (hi : i + (terminated (n :: ns)).length = xsize) : cstr (xbuf.drop i) = n ∧
    xbuf.drop (i + n.length + 1) = terminated ns ++ [nul] ∧ i + n.length + 1 + (terminated ns).length = xsize := by
  have hd : xbuf.drop i = n ++ nul :: (terminated ns ++ [nul]) := by simp [hd, terminated_cons]
  refine ⟨by rw [hd, cstr_append_nul _ _ hnul], ?_, ?_⟩
  · have hlen : i + n.length + 1 = i + (n ++ [nul]).length := by simp [Nat.add_assoc]
    have hsplit : n ++ nul :: (terminated ns ++ [nul]) = (n ++ [nul]) ++ (terminated ns ++ [nul]) := by simp
    rw [hlen, ← List.drop_drop, hd, hsplit, List.drop_left]
  · simp only [terminated_cons, List.length_append, List.length_cons] at hi
    omega

theorem listLoop_eq {xbuf : Str} {xsize : Nat} (ns : List Str) (hv : ∀ n ∈ ns, ValidXattr n) :
    ∀ (fuel i : Nat) (list : Str), ns.length < fuel → xbuf.drop i = terminated ns ++ [nul] →
      i + (terminated ns).length = xsize →
      listLoop xbuf xsize fuel i list = list ++ terminated (ns.filterMap shown) := by
  induction ns with
  | nil =>
    intro fuel i list hf hd hi
    obtain ⟨fuel, rfl⟩ := Nat.exists_eq_succ_of_ne_zero (Nat.ne_zero_of_lt hf)
    simp [listLoop, hd, terminated, cstr]
  | cons n ns ih =>
    intro fuel i list hf hd hi
    obtain ⟨fuel, rfl⟩ := Nat.exists_eq_succ_of_ne_zero (Nat.ne_zero_of_lt hf)
    obtain ⟨hne, hnul, -⟩ := hv n List.mem_cons_self
    obtain ⟨hname, hrest, hi⟩ := read_name hnul hd hi
    have hshown : (n :: ns).filterMap shown = (shown n).toList ++ ns.filterMap shown := by
      cases h : shown n <;> simp [h]
    have hlen : n.length ≠ 0 := fun h0 => hne (List.eq_nil_of_length_eq_zero h0)
    rw [listLoop]
    simp only [hname, if_neg hlen]
    rw [terminated_shown list hne, hshown, terminated_append, ← List.append_assoc]
    have hv : ∀ m ∈ ns, ValidXattr m := fun m hm => hv m (List.mem_cons_of_mem _ hm)
    have hf : ns.length < fuel := by simpa using hf
    split
    · exact ih hv fuel _ _ hf hrest hi
    · -- nothing is left to read
      cases ns with
      | nil => simp [terminated]
      | cons m ns =>
        simp only [terminated_cons, List.length_append, List.length_cons] at hi
        omega

section
variable {resolve : XattrResolve} {fs : XattrFiles} {a : XattrArg} {v : Option Errno} {list n : Str}

theorem length_le_terminated {ns : List Str} : ns.length ≤ (terminated ns).length := by
  induction ns with
  | nil => exact Nat.zero_le _
  | cons n ns ih =>
    simp only [terminated_cons, List.length_append, List.length_cons]
    omega

theorem listxattr_ok (h : XattrArg.listxattr resolve fs a v = .ok list) :
    ∃ i, a.file resolve fs = .ok i ∧ list = terminated ((fs.xattrs i).keys.filterMap shown) := by
  unfold XattrArg.listxattr at h
  cases hf : a.file resolve fs with
  | error e => rw [hf] at h; cases h
  | ok i =>
    rw [hf] at h
    cases hl : nextListxattr fs i a.listsiz v with
    | error e => simp only [bind, Except.bind, hl] at h; cases h
    | ok xbuf =>
      simp only [bind, Except.bind, hl, pure, Except.pure, Except.ok.injEq] at h
      refine ⟨i, rfl, ?_⟩
      have hx : xbuf = terminated (fs.xattrs i).keys := by
        unfold nextListxattr at hl
        cases v with
        | some e => cases hl
        | none =>
          dsimp only at hl
          split at hl
          · exact (Except.ok.inj hl).symm
          · cases hl
      subst hx
      rw [← h, listLoop_eq (fs.xattrs i).keys (fun n hn => Xattrs.valid_of_mem hn)]
      · simp
      · exact Nat.lt_succ_of_le length_le_terminated
      · simp
      · simp

theorem shown_some {k : Str} (h : shown k = some n) :
    (k = n ∧ ¬ xattrsPrefix <+: n) ∨ k = xattrsPrefix ++ n := by
  unfold shown at h
  split at h
  next hp =>
    split at h
    · cases h
    · cases h
      exact .inr (append_bare hp).symm
  next hp =>
    cases h
    exact .inl ⟨rfl, hp⟩

theorem shown_valid {k : Str} (hk : nul ∉ k) (h : shown k = some n) : nul ∉ n := by
  rcases shown_some h with ⟨rfl, -⟩ | rfl
  · exact hk
  · exact fun hn => hk (List.mem_append_right _ hn)

/-- A listed name is that of an attribute of the host, or the rest of one under the prefix. -/
theorem mem_listxattr (h : XattrArg.listxattr resolve fs a v = .ok list) (hn : n ∈ namesIn list) :
    ∃ i, a.file resolve fs = .ok i ∧
      ((n ∈ (fs.xattrs i).keys ∧ ¬ xattrsPrefix <+: n) ∨ xattrsPrefix ++ n ∈ (fs.xattrs i).keys) := by
  obtain ⟨i, hf, rfl⟩ := listxattr_ok h
  refine ⟨i, hf, ?_⟩
  rw [namesIn_terminated] at hn
  · obtain ⟨k, hk, hs⟩ := List.mem_filterMap.mp hn
    rcases shown_some hs with ⟨rfl, hp⟩ | rfl
    · exact .inl ⟨hk, hp⟩
    · exact .inr hk
  · intro m hm
    obtain ⟨k, hk, hs⟩ := List.mem_filterMap.mp hm
    exact shown_valid (Xattrs.valid_of_mem hk).2.1 hs

end

theorem mem_ownXattrs {g : Str} : xattrsPrefix ++ g ∈ ownXattrs ↔ g ∈ [modeName, uidName, gidName, pathResolutionName] := by
  simp [ownXattrs]

/-! ## The map -/

/-- **The guest's attributes.** In every state that a run of the calls reaches: two names
stand for one attribute of the host if and only if their bare parts are the same;
a name stands for one of the library's own attributes if and only if its bare part
is one of their four names; what was set is read, under any name with the same
bare part, until the attribute is set again or removed; and a listed name is that
of an attribute outside the prefix, or reads the attribute that it was listed for
unless it begins with the prefix. -/
theorem xattr_map (resolve : XattrResolve) (fs : XattrFiles) (l : List (XattrCall × Option Errno)) :
    (∀ siz siz' g h n m, xattrName siz g = .ok n → xattrName siz' h = .ok m → (n = m ↔ bare g = bare h)) ∧
    (∀ siz g n, xattrName siz g = .ok n →
      (n ∈ ownXattrs ↔ bare g ∈ [modeName, uidName, gidName, pathResolutionName])) ∧
    (∀ a g value flags v fs₁ i, XattrArg.setxattr resolve (Run.exec (xattrStep resolve) fs l) a g value flags v = (fs₁, .ok ()) →
      a.file resolve (Run.exec (xattrStep resolve) fs l) = .ok i →
      ∀ l', Run.Meets (xattrStep resolve) (Spares resolve i (xattrsPrefix ++ bare g)) fs₁ l' →
      ∀ b h size, b.file resolve (Run.exec (xattrStep resolve) fs₁ l') = .ok i → bare h = bare g → value.length ≤ size →
        XattrArg.getxattr resolve (Run.exec (xattrStep resolve) fs₁ l') b h size none = .ok (value.length, value)) ∧
    (∀ a v list n, XattrArg.listxattr resolve (Run.exec (xattrStep resolve) fs l) a v = .ok list → n ∈ namesIn list →
      ∃ i, a.file resolve (Run.exec (xattrStep resolve) fs l) = .ok i ∧
        ((n ∈ ((Run.exec (xattrStep resolve) fs l).xattrs i).keys ∧ ¬ xattrsPrefix <+: n) ∨
          xattrsPrefix ++ n ∈ ((Run.exec (xattrStep resolve) fs l).xattrs i).keys ∧
            (¬ xattrsPrefix <+: n → ∃ value,
              ((Run.exec (xattrStep resolve) fs l).xattrs i).lookup (xattrsPrefix ++ n) = some value ∧
              ∀ size, value.length ≤ size →
                XattrArg.getxattr resolve (Run.exec (xattrStep resolve) fs l) a n size none = .ok (value.length, value)))) := by
  refine ⟨?_, ?_, ?_, ?_⟩
  · intro siz siz' g h n m hn hm
    rw [xattrName_ok hn, xattrName_ok hm]
    exact List.append_right_inj _
  · intro siz g n hn
    rw [xattrName_ok hn]
    exact mem_ownXattrs
  · intro a g value flags v fs₁ i hset hf l' hl b h size hb hbare hs
    obtain ⟨j, hv, hj, rfl⟩ := setxattr_ok hset
    cases hf.symm.trans hj
    refine getxattr_some hb ?_ hs
    rw [hbare, lookup_run l' hl]
    simp [XattrFiles.put]
  · intro a v list n hlist hn
    obtain ⟨i, hf, hmem⟩ := mem_listxattr hlist hn
    refine ⟨i, hf, hmem.imp_right fun hk => ⟨hk, fun hp => ?_⟩⟩
    obtain ⟨value, hval⟩ := Xattrs.lookup_of_mem hk
    refine ⟨value, hval, fun size hs => getxattr_some hf ?_ hs⟩
    rw [bare_of_not hp]
    exact hval

def nativeFile : XattrFiles where
  xattrs _ := Xattrs.insert ⟨∅, nofun⟩ ['u', 's', 'e', 'r', '.', 'n'] ['1'] (by decide)
  names _ := some 0
  lnames _ := some 0
  fds _ := some 0

def asIsXattr : XattrResolve where
  path _ _ p _ _ := .ok p
  fpath _ _ := .ok []

theorem xattr_map_native : XattrArg.getxattr asIsXattr (XattrArg.setxattr asIsXattr nativeFile (.path ['f']) ['a'] ['x', 'y'] 0 none).1
      (.lpath ['f']) (xattrsPrefix ++ ['a']) 16 none = .ok (2, ['x', 'y']) :=
  (xattr_map asIsXattr nativeFile []).2.2.1 (.path ['f']) ['a'] ['x', 'y'] 0 none _ 0 rfl rfl [] trivial
    (.lpath ['f']) (xattrsPrefix ++ ['a']) 16 rfl rfl (by decide)

/-- `mode` is the library's own attribute, `a` and `user.iamroot.a` are one attribute,
and `user.n` of the host is listed and not to be read. -/
theorem xattr_names_meet : xattrName (xattrNameMax + 1) modeName = .ok (xattrsPrefix ++ modeName) ∧
    xattrsPrefix ++ modeName ∈ ownXattrs ∧
    xattrName (xattrNameMax + 1) ['a'] = xattrName (xattrNameMax + 1) (xattrsPrefix ++ ['a']) ∧
    XattrArg.listxattr asIsXattr nativeFile (.path ['f']) none = .ok (terminated [['u', 's', 'e', 'r', '.', 'n']]) ∧
    XattrArg.getxattr asIsXattr nativeFile (.path ['f']) ['u', 's', 'e', 'r', '.', 'n'] 16 none = .error .ENODATA :=
  ⟨by decide, by decide, by decide, rfl, rfl⟩

end Iamroot
