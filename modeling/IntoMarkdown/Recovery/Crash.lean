import IntoMarkdown.Lib.Transition
import IntoMarkdown.Recovery.Retry

/-! # Crashes during a commit

Histories of the store, what a purge removes, and after which crashes a token is
still recoverable. -/

namespace IntoMarkdown.Recovery
open IntoMarkdown.Core Transition

section
variable {T : Type} {c : Codec T} {d d' : Files} {t : RecoveryToken}

/-! ## Purges of tidy directories -/

theorem requireSinglyLinked_ok {i : Nat} (h : d.linkCount i = 1) (label : String) :
    requireSinglyLinked d i label = .ok () := by
  simp [requireSinglyLinked, h]

theorem verifyLinks_ok (h : d.Tidy) (names : List String) (label : String) :
    verifyLinks d names label = .ok () := by
  induction names with
  | nil => rfl
  | cons n names ih =>
    simp only [verifyLinks, List.forM_eq_forM, List.forM_cons] at ih ⊢
    cases hn : d.lookup n with
    | none => exact ih
    | some i =>
      simp only [requireSinglyLinked_ok (h.linkCount hn)]
      exact ih

/-- `d'` is `d` without these names. -/
structure Without (d d' : Files) (names : List String) : Prop where
  inodes : d'.inodes = d.inodes
  lookup : ∀ n, d'.lookup n = if n ∈ names then none else d.lookup n

theorem unlink_without (d : Files) (name : String) : Without d (unlink d name) [name] := by
  cases hn : d.lookup name with
  | none =>
    have hsame : unlink d name = d := by simp [unlink, Directory.unlink, hn]
    rw [hsame]
    refine ⟨rfl, fun m => ?_⟩
    split
    · rename_i hm
      rw [List.mem_singleton.mp hm, hn]
    · rfl
  | some i =>
    obtain ⟨e, he, hinodes, hlookup⟩ := Directory.unlink_ok hn
    have hsame : unlink d name = e := by simp [unlink, he]
    rw [hsame]
    exact ⟨hinodes, by simpa using hlookup⟩

theorem Without.tidy {names : List String} (h : Without d d' names) (ht : d.Tidy) : d'.Tidy := by
  have hold : ∀ n i, d'.lookup n = some i → d.lookup n = some i := by
    intro n i hn
    rw [h.lookup] at hn
    split at hn
    · cases hn
    · exact hn
  exact ht.of_injective (f := id) h.inodes hold fun _ _ _ _ _ he => he

theorem Without.trans {d'' : Files} {names names' : List String} (h : Without d d' names)
    (h' : Without d' d'' names') : Without d d'' (names ++ names') := by
  refine ⟨h'.inodes.trans h.inodes, fun n => ?_⟩
  rw [h'.lookup, h.lookup]
  by_cases hn : n ∈ names <;> by_cases hn' : n ∈ names' <;> simp [hn, hn']

theorem purgeName_ok (h : d.Tidy) (name : String) : purgeName d name = .ok (unlink d name) := by
  cases hn : d.lookup name with
  | none => simp [purgeName, hn, unlink, Directory.unlink]
  | some i =>
    simp [purgeName, hn, requireSinglyLinked_ok (h.linkCount hn), bind, Except.bind, pure,
      Except.pure]

theorem purgeNames_ok (h : d.Tidy) (names : List String) :
    ∃ d', names.foldlM purgeName d = .ok d' ∧ Without d d' names := by
  induction names generalizing d with
  | nil => exact ⟨d, rfl, rfl, by simp⟩
  | cons n names ih =>
    have hn := unlink_without d n
    obtain ⟨d', hrun, hd'⟩ := ih (hn.tidy h)
    refine ⟨d', ?_, hn.trans hd'⟩
    rw [List.foldlM_cons, purgeName_ok h]
    exact hrun

theorem purge_ok (h : d.Tidy) (t : RecoveryToken) :
    ∃ d', purge d t = .ok d' ∧ Without d d' (purgeNames t) := by
  obtain ⟨d', hrun, hd'⟩ := purgeNames_ok h (purgeNames t)
  refine ⟨d', ?_, hd'⟩
  rw [purge, verifyPurge, verifyLinks_ok h]
  exact hrun

/-- A purge that succeeds has kept every other name. -/
theorem purge_keeps {n : String} (h : purge d t = .ok d') (hn : n ∉ purgeNames t) :
    d'.lookup n = d.lookup n := by
  have keep : ∀ (names : List String) (d : Files), names.foldlM purgeName d = .ok d' →
      n ∉ names → d'.lookup n = d.lookup n := by
    intro names
    induction names with
    | nil =>
      intro d h _
      obtain rfl := Except.ok.inj h
      rfl
    | cons m names ih =>
      intro d h hn
      rw [List.foldlM_cons] at h
      obtain ⟨hne, hrest⟩ := not_or.mp (List.mem_cons.not.mp hn)
      cases hp : purgeName d m with
      | error e => simp [hp, bind, Except.bind] at h
      | ok e =>
        simp only [hp, bind, Except.bind] at h
        rw [ih e h hrest]
        simp only [purgeName] at hp
        split at hp
        · rw [Except.ok.inj hp]
        · simp only [bind, Except.bind, pure, Except.pure] at hp
          split at hp
          · cases hp
          · obtain rfl := Except.ok.inj hp
            rw [(unlink_without d m).lookup, if_neg (by simpa using hne)]
  simp only [purge, bind, Except.bind] at h
  split at h
  · cases h
  · exact keep _ d h hn

/-! ## Quarantine -/

theorem nodup_purgeNames (t : RecoveryToken) : (purgeNames t).Nodup := by
  have hphase : ∀ {p q}, p ≠ q → phaseName t p ≠ phaseName t q :=
    fun hne he => hne (phaseName_inj he).2
  simp only [purgeNames, List.nodup_cons, List.mem_cons, List.not_mem_nil, or_false, not_or,
    not_false_eq_true, List.nodup_nil, and_true]
  exact ⟨⟨hphase (by decide), hphase (by decide), phaseName_ne_lockName _ _ _⟩,
    ⟨hphase (by decide), phaseName_ne_lockName _ _ _⟩, phaseName_ne_lockName _ _ _⟩

/-- The renaming of one name, in either direction. -/
def moveName (f g : String → String) (d : Files) (n : String) : Except ConversionError Files :=
  match d.lookup (f n) with
  | none => .ok d
  | some _ => renameNoReplace d (f n) (g n)

/-- `d'` is `d` with every `f n` renamed to `g n`. -/
structure Moved (f g : String → String) (d d' : Files) (names : List String) : Prop where
  inodes : d'.inodes = d.inodes
  source : ∀ n ∈ names, d'.lookup (f n) = none
  target : ∀ n ∈ names, d'.lookup (g n) = d.lookup (f n)
  other : ∀ k, (∀ n ∈ names, k ≠ f n ∧ k ≠ g n) → d'.lookup k = d.lookup k

/-- No source is a target, and no two names share one. -/
structure Apart (f g : String → String) (names : List String) : Prop where
  nodup : names.Nodup
  source : ∀ n ∈ names, ∀ m ∈ names, f n = f m → n = m
  target : ∀ n ∈ names, ∀ m ∈ names, g n = g m → n = m
  disjoint : ∀ n ∈ names, ∀ m ∈ names, f n ≠ g m

theorem moveName_ok {f g : String → String} (h : d.Tidy) {n : String}
    (hfree : d.lookup (g n) = none) (hne : f n ≠ g n) :
    ∃ d', moveName f g d n = .ok d' ∧ d'.Tidy ∧ Moved f g d d' [n] := by
  cases hl : d.lookup (f n) with
  | none =>
    refine ⟨d, by simp [moveName, hl], h, rfl, ?_, ?_, fun _ _ => rfl⟩
    · simp [hl]
    · simp [hl, hfree]
  | some i =>
    obtain ⟨d', hmove, hinodes, hlookup⟩ := Directory.renameNoReplace_ok hl hfree
    refine ⟨d', by simp [moveName, hl, renameNoReplace, hmove, Except.mapError],
      h.rename hl hinodes hlookup, hinodes, ?_, ?_, fun k hk => ?_⟩
    · simp [hlookup, hne]
    · simp [hlookup, hl]
    · obtain ⟨hs, ht⟩ := hk n (by simp)
      rw [hlookup, if_neg ht, if_neg hs]

theorem moveNames_ok {f g : String → String} {names : List String} (hapart : Apart f g names)
    (h : d.Tidy) (hfree : ∀ n ∈ names, d.lookup (g n) = none) :
    ∃ d', names.foldlM (moveName f g) d = .ok d' ∧ d'.Tidy ∧ Moved f g d d' names := by
  induction names generalizing d with
  | nil => exact ⟨d, rfl, h, rfl, by simp, by simp, fun _ _ => rfl⟩
  | cons n names ih =>
    obtain ⟨hn, hnodup⟩ := List.nodup_cons.mp hapart.nodup
    have hrest : Apart f g names := ⟨hnodup,
      fun k hk m hm => hapart.source k (by simp [hk]) m (by simp [hm]),
      fun k hk m hm => hapart.target k (by simp [hk]) m (by simp [hm]),
      fun k hk m hm => hapart.disjoint k (by simp [hk]) m (by simp [hm])⟩
    have hne : ∀ k ∈ names, k ≠ n := fun k hk he => hn (he ▸ hk)
    -- the names that are still to be moved are not touched by the first move
    have hsource : ∀ k ∈ names, f k ≠ f n ∧ f k ≠ g n := fun k hk =>
      ⟨fun he => hne k hk (hapart.source k (by simp [hk]) n (by simp) he),
        hapart.disjoint k (by simp [hk]) n (by simp)⟩
    have htarget : ∀ k ∈ names, g k ≠ f n ∧ g k ≠ g n := fun k hk =>
      ⟨(hapart.disjoint n (by simp) k (by simp [hk])).symm,
        fun he => hne k hk (hapart.target k (by simp [hk]) n (by simp) he)⟩
    obtain ⟨d1, h1, htidy1, hm1⟩ := moveName_ok (f := f) (g := g) h (hfree n (by simp))
      (hapart.disjoint n (by simp) n (by simp))
    obtain ⟨d2, h2, htidy2, hm2⟩ := ih hrest htidy1 fun k hk => by
      rw [hm1.other _ (by simpa using htarget k hk), hfree k (by simp [hk])]
    refine ⟨d2, ?_, htidy2, hm2.inodes.trans hm1.inodes, fun k hk => ?_, fun k hk => ?_,
      fun k hk => ?_⟩
    · rw [List.foldlM_cons, h1]
      exact h2
    · rcases List.mem_cons.mp hk with rfl | hk
      · rw [hm2.other _ fun m hm => ⟨(hsource m hm).1.symm, (htarget m hm).1.symm⟩,
          hm1.source k (by simp)]
      · exact hm2.source k hk
    · rcases List.mem_cons.mp hk with rfl | hk
      · rw [hm2.other _ fun m hm => ⟨(hsource m hm).2.symm, (htarget m hm).2.symm⟩,
          hm1.target k (by simp)]
      · rw [hm2.target k hk, hm1.other _ (by simpa using hsource k hk)]
    · rw [hm2.other k fun m hm => hk m (by simp [hm]),
        hm1.other k fun m hm => by rw [List.mem_singleton.mp hm]; exact hk n (by simp)]

theorem apart_quarantine (t : RecoveryToken) : Apart id purgeQuarantineName (purgeNames t) where
  nodup := nodup_purgeNames t
  source := fun _ _ _ _ h => h
  target := fun _ _ _ _ h => purgeQuarantineName_inj h
  disjoint := fun n hn m _ he =>
    not_hidden_of_mem hn ((show n = _ from he) ▸ hidden_purgeQuarantineName m)

theorem apart_restore (t : RecoveryToken) : Apart purgeQuarantineName id (purgeNames t) where
  nodup := nodup_purgeNames t
  source := fun _ _ _ _ h => purgeQuarantineName_inj h
  target := fun _ _ _ _ h => h
  disjoint := fun n hn m hm he => (apart_quarantine t).disjoint m hm n hn he.symm

theorem quarantineNames_of_moves {names : List String} (moved : List (String × String))
    (h : names.foldlM (moveName id purgeQuarantineName) d = .ok d') :
    ∃ moved', quarantineNames names d moved = (d', .ok moved') := by
  induction names generalizing d moved with
  | nil =>
    obtain rfl := Except.ok.inj h
    exact ⟨moved, rfl⟩
  | cons n names ih =>
    rw [List.foldlM_cons] at h
    cases hl : d.lookup n with
    | none =>
      simp only [moveName, id, hl] at h
      obtain ⟨moved', hrun⟩ := ih moved h
      exact ⟨moved', by simp [quarantineNames, hl, hrun]⟩
    | some i =>
      simp only [moveName, id, hl] at h
      cases hr : renameNoReplace d n (purgeQuarantineName n) with
      | error e => simp [hr, bind, Except.bind] at h
      | ok d1 =>
        rw [hr] at h
        obtain ⟨moved', hrun⟩ := ih ((n, purgeQuarantineName n) :: moved) h
        exact ⟨moved', by simp [quarantineNames, hl, hr, hrun]⟩

/-- The quarantine names of the token are free. -/
def QuarantineFree (d : Files) (t : RecoveryToken) : Prop :=
  ∀ n ∈ purgeNames t, d.lookup (purgeQuarantineName n) = none

theorem quarantinePurge_ok (h : d.Tidy) (hfree : QuarantineFree d t) :
    ∃ d', quarantinePurge d t = (d', .ok ()) ∧ d'.Tidy ∧
      Moved id purgeQuarantineName d d' (purgeNames t) := by
  obtain ⟨d', hrun, htidy, hmoved⟩ := moveNames_ok (apart_quarantine t) h hfree
  obtain ⟨moved, hnames⟩ := quarantineNames_of_moves [] hrun
  refine ⟨d', ?_, htidy, hmoved⟩
  have hverify : verifyQuarantinedPurge d' t = .ok () := verifyLinks_ok htidy _ _
  simp [quarantinePurge, verifyPurge, verifyLinks_ok h, hnames, hverify]

theorem restorePurge_ok (h : d.Tidy) (hfree : ∀ n ∈ purgeNames t, d.lookup n = none) :
    ∃ d', restorePurge d t = .ok d' ∧ d'.Tidy ∧
      Moved purgeQuarantineName id d d' (purgeNames t) := by
  obtain ⟨d', hrun, htidy, hmoved⟩ := moveNames_ok (apart_restore t) h hfree
  refine ⟨d', ?_, htidy, hmoved⟩
  rw [restorePurge, verifyQuarantinedPurge, verifyLinks_ok h]
  exact hrun

theorem finishPurge_ok (h : d.Tidy) (t : RecoveryToken) :
    ∃ d', finishPurge d t = .ok d' ∧ Without d d' ((purgeNames t).map purgeQuarantineName) := by
  have hall : ∀ (names : List String) (d : Files),
      Without d (names.foldl (fun d name => unlink d (purgeQuarantineName name)) d)
        (names.map purgeQuarantineName) := by
    intro names
    induction names with
    | nil => exact fun d => ⟨rfl, by simp⟩
    | cons n names ih => exact fun d => (unlink_without d _).trans (ih _)
  refine ⟨_, ?_, hall (purgeNames t) d⟩
  rw [finishPurge, verifyQuarantinedPurge, verifyLinks_ok h]
  rfl

/-! ## Histories -/

/-- What can have happened to the store before: each action under its token's
lock. A retention is a quarantine that is finished or restored. -/
inductive Action (T : Type) where
  | lock (token : RecoveryToken)
  | commit (job : Commit T)
  /-- A commit that a crash has cut off cleanly. -/
  | crash (job : Commit T) (steps : Nat)
  | removeMedia (token : RecoveryToken)
  | purge (token : RecoveryToken)
  | retire (token : RecoveryToken)
  | retain (token : RecoveryToken)

def step (c : Codec T) (d : Files) : Action T → Option Files
  | .lock token => some (openLock d (lockName token))
  | .commit job => some (commitInner c d job).1
  | .crash job k => if CleanCut c job k then some (cutOff c d job k) else none
  | .removeMedia token => some (removeMedia d token)
  | .purge token => (purge d token).toOption
  | .retire token =>
    match quarantinePurge d token with
    | (d', .ok ()) => (finishPurge d' token).toOption
    | (_, .error _) => none
  | .retain token =>
    match quarantinePurge d token with
    | (d', .ok ()) => (restorePurge d' token).toOption
    | (_, .error _) => none

/-- Every name is the only one of its file, only live names are there, and a phase
name has a complete checkpoint of its token and phase. -/
structure Settled (c : Codec T) (d : Files) : Prop where
  tidy : d.Tidy
  temporary : ∀ t nonce, d.lookup (temporaryName t nonce) = none
  quarantine : ∀ t, QuarantineFree d t
  complete : ∀ t p i, d.lookup (phaseName t p) = some i →
    ∃ bytes, d.content i = some bytes ∧ Complete c t p bytes

theorem settled_empty : Settled c Directory.empty where
  tidy := Directory.tidy_empty
  temporary := fun _ _ => rfl
  quarantine := fun _ _ _ => rfl
  complete := fun _ _ _ h => by simp at h

theorem Settled.ready (hs : Settled c d) (t : RecoveryToken) : Ready c d t where
  known := hs.tidy.known
  complete := hs.complete t
  media := fun _ hi => hs.tidy.linkCount hi

/-- Names go, files stay. -/
theorem Settled.sub (hs : Settled c d) (hinodes : d'.inodes = d.inodes)
    (h : ∀ n, d'.lookup n = none ∨ d'.lookup n = d.lookup n) : Settled c d' := by
  have hold : ∀ n i, d'.lookup n = some i → d.lookup n = some i := by
    intro n i hn
    rcases h n with he | he
    · rw [he] at hn
      cases hn
    · rw [← he, hn]
  have hnone : ∀ n, d.lookup n = none → d'.lookup n = none := by
    intro n hn
    rcases h n with he | he
    · exact he
    · rw [he, hn]
  refine ⟨hs.tidy.of_injective (f := id) hinodes hold fun _ _ _ _ _ he => he,
    fun t nonce => hnone _ (hs.temporary t nonce), fun t n hn => hnone _ (hs.quarantine t n hn),
    fun t p i hp => ?_⟩
  rw [Directory.content, hinodes]
  exact hs.complete t p i (hold _ i hp)

/-- One file comes, under one live name at most. -/
theorem Settled.added (hs : Settled c d) {names : List String} {bytes : Bytes}
    (h : Added d d' names bytes) (hone : ∀ n ∈ names, ∀ m ∈ names, n = m)
    (hlive : ∀ n ∈ names, ¬ Hidden n)
    (hnew : ∀ t p, phaseName t p ∈ names → Complete c t p bytes) : Settled c d' := by
  have hother : ∀ n, Hidden n → d'.lookup n = d.lookup n := by
    intro n hn
    rw [h.lookup, if_neg fun hm => hlive n hm hn]
  refine ⟨⟨fun n m i hn hm => ?_, fun n i hn => ?_⟩, fun t nonce => ?_, fun t n hn => ?_,
    fun t p i hp => ?_⟩
  · rw [h.lookup] at hn hm
    split at hn <;> split at hm
    · rename_i h1 h2
      exact hone n h1 m h2
    · obtain rfl := Option.some.inj hn
      exact absurd (hs.tidy.known _ _ hm) (lt_irrefl _)
    · obtain rfl := Option.some.inj hm
      exact absurd (hs.tidy.known _ _ hn) (lt_irrefl _)
    · exact hs.tidy.single n m i hn hm
  · rw [h.lookup] at hn
    rw [h.inodes, List.length_append, List.length_singleton]
    split at hn
    · obtain rfl := Option.some.inj hn
      omega
    · have := hs.tidy.known n i hn
      omega
  · rw [hother _ (hidden_temporaryName t nonce), hs.temporary]
  · rw [hother _ (hidden_purgeQuarantineName n), hs.quarantine t n hn]
  · rw [h.lookup] at hp
    split at hp
    · rename_i hmem
      obtain rfl := Option.some.inj hp
      exact ⟨bytes, h.content_new, hnew t p hmem⟩
    · rw [h.content_old (hs.tidy.known _ i hp)]
      exact hs.complete t p i hp

theorem Settled.target {job : Commit T} {bytes : Bytes} (hs : Settled c d)
    (hb : job.envelope c = .ok bytes) (h : Added d d' [job.target c] bytes) : Settled c d' := by
  refine hs.added h (by simp) (fun n hn => ?_) fun t p he => ?_
  · rw [List.mem_singleton.mp hn]
    exact not_hidden_phaseName job.token (job.phase c)
  · obtain ⟨rfl, rfl⟩ := phaseName_inj (List.mem_singleton.mp he)
    exact ⟨job, rfl, rfl, hb⟩

theorem Settled.startable (hs : Settled c d) {job : Commit T}
    (hcheck : commitCheck c d job = .ok ()) : Startable c d job where
  known := hs.tidy.known
  temporary := hs.temporary _ _
  target := by
    simp only [commitCheck] at hcheck
    split at hcheck
    · rename_i hnone
      exact Or.inr hnone
    · split at hcheck
      · rename_i hr
        exact Or.inl hr
      · cases hcheck

theorem commit_settled (hs : Settled c d) (job : Commit T) :
    Settled c (commitInner c d job).1 := by
  cases hcheck : commitCheck c d job with
  | error e =>
    have hsame : (commitInner c d job).1 = d := by simp [commitInner, hcheck]
    rw [hsame]
    exact hs
  | ok =>
    have hd := hs.startable hcheck
    cases he : job.envelope c with
    | ok bytes =>
      obtain ⟨d', hcommit, hadded⟩ := commitInner_ok he hd hcheck
      rw [hcommit]
      exact hs.target he hadded
    | error e =>
      obtain ⟨written, hadded⟩ := commitInner_error he hd hcheck
      exact hs.added hadded (by simp) (by simp) (by simp)

theorem crash_settled (hs : Settled c d) {job : Commit T} {k : Nat} (hclean : CleanCut c job k) :
    Settled c (cutOff c d job k) := by
  cases hcheck : commitCheck c d job with
  | error e =>
    have hsame : cutOff c d job k = d := by simp [cutOff, hcheck]
    rw [hsame]
    exact hs
  | ok =>
    cases he : job.envelope c with
    | error e =>
      have hk : k = 0 := by
        rcases hclean with hk | ⟨hok, -⟩
        · exact hk
        · simp [he, Except.isOk, Except.toBool] at hok
      have hsame : cutOff c d job k = d := by simp [cutOff, hcheck, hk, run]
      rw [hsame]
      exact hs
    | ok bytes =>
      cases cutOff_shape he (hs.startable hcheck) hcheck k with
      | before _ same =>
        rw [same]
        exact hs
      | staged unclean => exact absurd hclean unclean
      | linked unclean => exact absurd hclean unclean
      | published _ added => exact hs.target he added

theorem retire_without (hs : Settled c d) (t : RecoveryToken) :
    ∃ e f, quarantinePurge d t = (e, .ok ()) ∧ finishPurge e t = .ok f ∧ e.Tidy ∧
      Moved id purgeQuarantineName d e (purgeNames t) ∧
      Without e f ((purgeNames t).map purgeQuarantineName) := by
  obtain ⟨e, hrun, htidy, hmoved⟩ := quarantinePurge_ok hs.tidy (hs.quarantine t)
  obtain ⟨f, hfinish, hwithout⟩ := finishPurge_ok htidy t
  exact ⟨e, f, hrun, hfinish, htidy, hmoved, hwithout⟩

/-- A quarantine has emptied the live names and filled no other name but its own. -/
theorem Moved.sub (h : Moved id purgeQuarantineName d d' (purgeNames t)) {n : String}
    (hn : n ∉ (purgeNames t).map purgeQuarantineName) :
    d'.lookup n = none ∨ d'.lookup n = d.lookup n := by
  by_cases hl : n ∈ purgeNames t
  · exact Or.inl (h.source n hl)
  · refine Or.inr (h.other n fun m hm => ⟨fun he => hl ?_, fun he => hn ?_⟩)
    · rw [he]
      exact hm
    · rw [he]
      exact List.mem_map_of_mem hm

theorem step_settled (hs : Settled c d) {a : Action T} (h : step c d a = some d') :
    Settled c d' := by
  cases a with
  | lock token =>
    obtain rfl := Option.some.inj h
    rcases openLock_spec d (lockName token) with he | hadded
    · rw [he]
      exact hs
    · refine hs.added hadded (by simp) (fun n hn => ?_) fun t p he => ?_
      · rw [List.mem_singleton.mp hn]
        exact not_hidden_lockName token
      · exact absurd (List.mem_singleton.mp he) (phaseName_ne_lockName t token p)
  | commit job =>
    obtain rfl := Option.some.inj h
    exact commit_settled hs job
  | crash job k =>
    simp only [step] at h
    split at h
    · rename_i hclean
      obtain rfl := Option.some.inj h
      exact crash_settled hs hclean
    · cases h
  | removeMedia token =>
    obtain rfl := Option.some.inj h
    obtain ⟨hinodes, hlookup⟩ := removeMedia_spec d token
    apply hs.sub hinodes
    intro n
    rw [hlookup]
    split
    · exact Or.inl rfl
    · exact Or.inr rfl
  | purge token =>
    obtain ⟨e, hrun, hwithout⟩ := purge_ok hs.tidy token
    simp only [step, hrun, Except.toOption, Option.some.injEq] at h
    subst h
    apply hs.sub hwithout.inodes
    intro n
    rw [hwithout.lookup]
    split
    · exact Or.inl rfl
    · exact Or.inr rfl
  | retire token =>
    obtain ⟨e, f, hrun, hfinish, -, hmoved, hwithout⟩ := retire_without hs token
    simp only [step, hrun, hfinish, Except.toOption, Option.some.injEq] at h
    subst h
    apply hs.sub (hwithout.inodes.trans hmoved.inodes)
    intro n
    rw [hwithout.lookup]
    split
    · exact Or.inl rfl
    · rename_i hn
      exact hmoved.sub hn
  | retain token =>
    obtain ⟨e, hrun, htidy, hmoved⟩ := quarantinePurge_ok hs.tidy (hs.quarantine token)
    obtain ⟨f, hrestore, -, hback⟩ := restorePurge_ok (t := token) htidy hmoved.source
    simp only [step, hrun, hrestore, Except.toOption, Option.some.injEq] at h
    subst h
    apply hs.sub (hback.inodes.trans hmoved.inodes)
    intro n
    by_cases hn : n ∈ (purgeNames token).map purgeQuarantineName
    · obtain ⟨m, hm, rfl⟩ := List.mem_map.mp hn
      exact Or.inl (hback.source m hm)
    · by_cases hl : n ∈ purgeNames token
      · right
        have h1 := hback.target n hl
        have h2 := hmoved.target n hl
        simp only [id] at h1 h2
        rw [h1, h2]
      · have hother : f.lookup n = e.lookup n := hback.other n fun m hm =>
          ⟨fun he => hn (he ▸ List.mem_map_of_mem hm), fun he => hl ((show n = m from he) ▸ hm)⟩
        rw [hother]
        exact hmoved.sub hn

theorem reachable_settled (h : Reachable (step c) Directory.empty d) : Settled c d :=
  h.invariant settled_empty fun _ _ _ hs hstep => step_settled hs hstep

/-! ## Recovery after a crash -/

/-- No checkpoint, lock or temporary file of the token is left. -/
structure Gone (d : Files) (t : RecoveryToken) : Prop where
  names : ∀ n ∈ purgeNames t, d.lookup n = none
  temporary : ∀ nonce, d.lookup (temporaryName t nonce) = none

/-- The readers see the checkpoints before the commit or the complete new one, and
do not fail where there is memory for it; a retry with the same fingerprints ends
with the final checkpoint. -/
structure Resumable (c : Codec T) (d : Files) (job : Commit T) (d' : Files) : Prop where
  reads : (inspect c d' job.token = inspect c d job.token ∧
      ∀ context, load c context d' job.token = load c context d job.token) ∨
    (inspect c d' job.token = .ok (some (job.metadata c)) ∧
      ∀ context, Room context (latestCharge d' job.token) →
        load c context d' job.token = .ok (some (job.metadata c, job.payload)))
  inspects : ∃ m, inspect c d' job.token = .ok m
  loads : ∀ context, Room context (latestCharge d' job.token) →
    ∃ r, load c context d' job.token = .ok r
  retries : ∀ (work : Conversion T) (input options : Fingerprint) (context : Memory.State),
    WorkFits c d' job.token work →
    (∀ m, inspect c d' job.token = .ok (some m) →
      m.inputFingerprint = input.text ∧ m.optionsFingerprint = options.text) →
    Room context (latestCharge d' job.token) →
    ∃ e m, convert c context d' job.token input options work = (e, .ok ()) ∧
      inspect c e job.token = .ok (some m) ∧ m.phase = .succeeded

/-- Every way of purging the token succeeds and leaves nothing behind. -/
structure Purgeable (d : Files) (t : RecoveryToken) : Prop where
  verifies : verifyPurge d t = .ok ()
  purges : ∃ e, purge d t = .ok e ∧ Gone e t
  quarantines : ∃ e f, quarantinePurge d t = (e, .ok ()) ∧ Gone e t ∧
    finishPurge e t = .ok f ∧ Gone f t ∧ QuarantineFree f t

def Recoverable (c : Codec T) (d : Files) (job : Commit T) (d' : Files) : Prop :=
  Resumable c d job d' ∧ Purgeable d' job.token

theorem CutShape.ready {job : Commit T} {bytes : Bytes} {k : Nat} (hr : Ready c d job.token)
    (hb : job.envelope c = .ok bytes) (h : CutShape c job bytes d k d') :
    Ready c d' job.token := by
  have htemp : ∀ p, phaseName job.token p ≠ job.temporary := fun p =>
    phaseName_ne_temporaryName _ _ _ _
  have htarget : ∀ p, phaseName job.token p = job.target c → Complete c job.token p bytes := by
    intro p hp
    obtain ⟨-, rfl⟩ := phaseName_inj hp
    exact ⟨job, rfl, rfl, hb⟩
  cases h with
  | before _ same =>
    rw [same]
    exact hr
  | staged _ written added =>
    refine hr.added added (fun p hp => ?_) fun hm => ?_
    · exact absurd (List.mem_singleton.mp hp) (htemp p)
    · exact absurd (List.mem_singleton.mp hm) (htemp _)
  | linked _ link added =>
    refine hr.added added (fun p hp => ?_) fun hm => ?_
    · rcases List.mem_cons.mp hp with hp | hp
      · exact absurd hp (htemp p)
      · exact htarget p (List.mem_singleton.mp hp)
    · -- the media checkpoint is not published by a link
      rcases List.mem_cons.mp hm with hm | hm
      · exact absurd hm (htemp _)
      · obtain ⟨-, hp⟩ := phaseName_inj (List.mem_singleton.mp hm)
        simp [Commit.replace, ← hp] at link
  | published _ added =>
    refine hr.added added (fun p hp => htarget p (List.mem_singleton.mp hp)) fun hm => ?_
    rw [List.mem_singleton.mp hm]

/-- Whatever the cut, the readers and a retry are served. -/
theorem CutShape.resumable (hc : c.Lawful) {job : Commit T} {bytes : Bytes} {k : Nat}
    (hr : Ready c d job.token) (hb : job.envelope c = .ok bytes)
    (h : CutShape c job bytes d k d') : Resumable c d job d' := by
  have hr' := h.ready hr hb
  have htemp : ∀ p, phaseName job.token p ≠ job.temporary := fun p =>
    phaseName_ne_temporaryName _ _ _ _
  have htarget : ∀ p, phaseName job.token p = job.target c ↔ p = job.phase c := fun p =>
    ⟨fun he => (phaseName_inj he).2, fun he => by rw [he, Commit.target]⟩
  -- a cut that has added the checkpoint shows the old one or the new one
  have hadded : ∀ names, Added d d' names bytes → (∀ p, phaseName job.token p ∈ names ↔
      p = job.phase c) → (inspect c d' job.token = inspect c d job.token ∧
        ∀ context, load c context d' job.token = load c context d job.token) ∨
      (inspect c d' job.token = .ok (some (job.metadata c)) ∧
        ∀ context, Room context (latestCharge d' job.token) →
          load c context d' job.token = .ok (some (job.metadata c, job.payload))) := by
    intro names added hnames
    have hphases : ∀ q, d'.lookup (phaseName job.token q) =
        if q = job.phase c then some d.inodes.length else d.lookup (phaseName job.token q) := by
      intro q
      simp only [added.lookup, hnames]
    rcases latest_added hphases with hl | hl
    · exact Or.inl (inspect_congr hl fun p i hli =>
        added.content_old (hr.known _ i (latest_some hli)))
    · exact Or.inr (read_latest hc hl hb added.content_new)
  refine ⟨?_, ?_, fun context hroom => ?_, fun work input options context hwork hcompat hroom =>
    hr'.convert hc hwork hcompat hroom⟩
  · cases h with
    | before _ same =>
      rw [same]
      exact Or.inl ⟨rfl, fun _ => rfl⟩
    | staged _ written added =>
      have hphase : ∀ p, d'.lookup (phaseName job.token p) = d.lookup (phaseName job.token p) := by
        intro p
        rw [added.lookup, if_neg (by simpa using htemp p)]
      exact Or.inl (inspect_congr (latest_congr hphase) fun p i hl =>
        added.content_old (hr.known _ i (latest_some hl)))
    | linked _ _ added => exact hadded _ added fun p => by simp [htemp p, htarget p]
    | published _ added => exact hadded _ added fun p => by simp [htarget p]
  · rcases hr'.read hc with ⟨-, hinspect, -⟩ | ⟨found, -, -, hinspect, -⟩
    · exact ⟨_, hinspect⟩
    · exact ⟨_, hinspect⟩
  · rcases hr'.read hc with ⟨-, -, hload⟩ | ⟨found, -, -, -, hload⟩
    · exact ⟨_, hload context⟩
    · exact ⟨_, hload context hroom⟩

theorem Without.gone {names : List String} (hs : Settled c d) (h : Without d d' names)
    (hnames : ∀ n ∈ purgeNames t, n ∈ names ∨ d.lookup n = none) : Gone d' t where
  names := by
    intro n hn
    rw [h.lookup]
    split
    · rfl
    · rename_i hnot
      exact (hnames n hn).resolve_left hnot
  temporary := by
    intro nonce
    rw [h.lookup]
    split
    · rfl
    · exact hs.temporary t nonce

/-- A settled directory is purged without a trace. -/
theorem Settled.purgeable (hs : Settled c d) (t : RecoveryToken) : Purgeable d t := by
  obtain ⟨g, hpurge, hwithout⟩ := purge_ok hs.tidy t
  obtain ⟨e, f, hrun, hfinish, -, hmoved, hfin⟩ := retire_without hs t
  have htemp : ∀ nonce, temporaryName t nonce ∉ (purgeNames t).map purgeQuarantineName := by
    intro nonce hm
    obtain ⟨n, -, he⟩ := List.mem_map.mp hm
    exact temporaryName_ne_purgeQuarantineName t nonce n he.symm
  have hgone : Gone e t := by
    refine ⟨hmoved.source, fun nonce => ?_⟩
    rcases hmoved.sub (htemp nonce) with he | he
    · exact he
    · rw [he, hs.temporary]
  refine ⟨verifyLinks_ok hs.tidy _ _, ⟨g, hpurge, hwithout.gone hs fun n hn => Or.inl hn⟩,
    ⟨e, f, hrun, hgone, hfinish, ⟨fun n hn => ?_, fun nonce => ?_⟩, fun n hn => ?_⟩⟩
  · rw [hfin.lookup]
    split
    · rfl
    · exact hgone.names n hn
  · rw [hfin.lookup, if_neg (htemp nonce), hgone.temporary]
  · rw [hfin.lookup, if_pos (List.mem_map_of_mem hn)]

theorem temporaryName_not_mem (t : RecoveryToken) (nonce : String) :
    temporaryName t nonce ∉ purgeNames t := fun hm =>
  not_hidden_of_mem hm (hidden_temporaryName t nonce)

/-- No purge removes a temporary file. -/
theorem not_purgeable {nonce : String} {i : Nat} (h : d.lookup (temporaryName t nonce) = some i) :
    ¬ Purgeable d t := by
  intro hp
  obtain ⟨e, hpurge, hgone⟩ := hp.purges
  have hkeep := purge_keeps hpurge (temporaryName_not_mem t nonce)
  rw [hgone.temporary, h] at hkeep
  cases hkeep

theorem verifyLinks_single {names : List String} {label : String} {n : String} {i : Nat}
    (h : verifyLinks d names label = .ok ()) (hn : n ∈ names) (hi : d.lookup n = some i) :
    d.linkCount i = 1 := by
  induction names with
  | nil => cases hn
  | cons m names ih =>
    simp only [verifyLinks, List.forM_eq_forM, List.forM_cons] at ih h
    rcases List.mem_cons.mp hn with rfl | hn
    · by_contra hcount
      simp only [hi, requireSinglyLinked, if_neg hcount] at h
      cases h
    · apply ih _ hn
      cases hm : d.lookup m with
      | none =>
        rw [hm] at h
        exact h
      | some j =>
        by_cases hcount : d.linkCount j = 1
        · simp only [hm, requireSinglyLinked, if_pos hcount] at h
          exact h
        · simp only [hm, requireSinglyLinked, if_neg hcount] at h
          cases h

/-- Between the link and the unlink of a commit the checkpoint has two names, and
every verification of a purge refuses it. -/
theorem Added.unverified {job : Commit T} {bytes : Bytes}
    (h : Added d d' [job.temporary, job.target c] bytes) : verifyPurge d' job.token ≠ .ok () := by
  intro hv
  have htarget : d'.lookup (job.target c) = some d.inodes.length := by
    rw [h.lookup, if_pos (by simp)]
  have htemporary : d'.lookup job.temporary = some d.inodes.length := by
    rw [h.lookup, if_pos (by simp)]
  have hmem : job.target c ∈ purgeNames job.token := by
    unfold Commit.target
    cases job.phase c <;> simp [purgeNames]
  have hcount := verifyLinks_single hv hmem htarget
  have hname := (Directory.linkCount_eq_one htarget).mp hcount _ htemporary
  exact phaseName_ne_temporaryName _ _ _ _ hname.symm

/-- **Crashes during a commit.** After any history, a commit that is cut off after
`k` steps leaves a recoverable token exactly when its temporary name is not there. -/
theorem recoverable_iff (hc : c.Lawful) (h : Reachable (step c) Directory.empty d)
    {job : Commit T} {bytes : Bytes} (hb : job.envelope c = .ok bytes)
    (hcheck : commitCheck c d job = .ok ()) (k : Nat) :
    Recoverable c d job (cutOff c d job k) ↔ CleanCut c job k := by
  have hs := reachable_settled h
  have hshape := cutOff_shape hb (hs.startable hcheck) hcheck k
  constructor
  · intro hrec
    have hfound : ∀ {i : Nat}, (cutOff c d job k).lookup job.temporary = some i → CleanCut c job k :=
      fun hi => absurd hrec.2 (not_purgeable hi)
    cases hshape with
    | before start => exact Or.inl start
    | staged _ written added => exact hfound (by rw [added.lookup, if_pos (by simp)])
    | linked _ _ added => exact hfound (by rw [added.lookup, if_pos (by simp)])
    | published clean => exact clean
  · intro hclean
    exact ⟨hshape.resumable hc (hs.ready _) hb, (crash_settled hs hclean).purgeable _⟩

end

/-! ## The first commit of a conversion -/

/-- The SHA-256 digests of the three payloads. -/
def payloadDigests : TaskPhase → Bytes
  | .media => [
      106, 45, 125, 124, 211, 36, 237, 64, 8, 210, 35, 141, 136, 60, 238, 155, 147, 207,
      192, 129, 51, 57, 51, 201, 119, 110, 210, 156, 175, 65, 243, 254]
  | .converted => [
      247, 122, 204, 84, 237, 68, 40, 6, 245, 3, 198, 76, 207, 209, 68, 233, 139, 32, 129,
      253, 126, 62, 205, 51, 202, 96, 196, 33, 43, 77, 5, 98]
  | .succeeded => [
      184, 48, 208, 39, 119, 247, 58, 158, 149, 176, 118, 94, 125, 251, 83, 33, 217, 45,
      182, 181, 161, 54, 116, 204, 69, 199, 118, 185, 172, 26, 44, 153]

theorem length_payloadDigests (phase : TaskPhase) : (payloadDigests phase).length = 32 := by
  cases phase <;> rfl

def storeCodec : Codec TaskPhase := phaseCodec payloadDigests

def zeroDigest : String := "0000000000000000000000000000000000000000000000000000000000000000"

def firstToken : RecoveryToken := ⟨"0123456789abcdef0123456789abcdef", by decide⟩

/-- A converted checkpoint, written in one piece. -/
def firstCommit : Commit TaskPhase where
  token := firstToken
  input := ⟨zeroDigest, by decide⟩
  options := ⟨zeroDigest, by decide⟩
  payload := .converted
  nonce := "fedcba9876543210fedcba9876543210"
  sizes := []

theorem firstCommit_envelope : ∃ bytes, firstCommit.envelope storeCodec = .ok bytes :=
  phaseCodec_envelope payloadDigests length_payloadDigests firstCommit

theorem storeCodec_lawful : storeCodec.Lawful := phaseCodec_lawful length_payloadDigests

theorem firstCommit_clean {bytes : Bytes} (hb : firstCommit.envelope storeCodec = .ok bytes)
    (k : Nat) : CleanCut storeCodec firstCommit k ↔ k = 0 ∨ 6 ≤ k :=
  cleanCut_iff hb k

/-- Without the last directory sync the first commit is recoverable, and right
after its first step it is not. -/
theorem recoverable_first_commit : ∃ bytes, firstCommit.envelope storeCodec = .ok bytes ∧
    commitCheck storeCodec Directory.empty firstCommit = .ok () ∧
    Recoverable storeCodec Directory.empty firstCommit
      (cutOff storeCodec Directory.empty firstCommit 6) ∧
    ¬ Recoverable storeCodec Directory.empty firstCommit
      (cutOff storeCodec Directory.empty firstCommit 1) := by
  obtain ⟨bytes, hb⟩ := firstCommit_envelope
  refine ⟨bytes, hb, rfl, ?_, ?_⟩
  · apply (recoverable_iff storeCodec_lawful (.refl _) hb rfl 6).mpr
    rw [firstCommit_clean hb]
    omega
  · intro hrec
    have hclean := (recoverable_iff storeCodec_lawful (.refl _) hb rfl 1).mp hrec
    rw [firstCommit_clean hb] at hclean
    omega

/-- The first commit, cut off between the link and the unlink: the directory is
reachable and the commit is sound, but no purge of the token gets past its check. -/
theorem cut_after_link_not_recoverable :
    Reachable (step storeCodec) Directory.empty Directory.empty ∧
    commitCheck storeCodec Directory.empty firstCommit = .ok () ∧
    verifyPurge (cutOff storeCodec Directory.empty firstCommit 4) firstToken ≠ .ok () ∧
    ¬ Recoverable storeCodec Directory.empty firstCommit
      (cutOff storeCodec Directory.empty firstCommit 4) := by
  obtain ⟨bytes, hb⟩ := firstCommit_envelope
  have hstart : Startable storeCodec Directory.empty firstCommit :=
    (settled_empty (c := storeCodec)).startable rfl
  have hlinked : Added Directory.empty (cutOff storeCodec Directory.empty firstCommit 4)
      [firstCommit.temporary, firstCommit.target storeCodec] bytes :=
    cutOff_linked hb hstart rfl rfl
  have htemporary : (cutOff storeCodec Directory.empty firstCommit 4).lookup
      firstCommit.temporary = some 0 := by
    rw [hlinked.lookup, if_pos List.mem_cons_self]
    rfl
  exact ⟨.refl _, rfl, hlinked.unverified, fun hrec => not_purgeable htemporary hrec.2⟩

end IntoMarkdown.Recovery
