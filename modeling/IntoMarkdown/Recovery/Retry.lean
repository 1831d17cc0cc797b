import IntoMarkdown.Recovery.Metadata

/-! # Reading and retrying after a crash

The readers and a retry only need complete checkpoints under the phase names and
one name for the media checkpoint, and every cut of a commit leaves them that. -/

namespace IntoMarkdown.Recovery
open IntoMarkdown.Core

section
variable {T : Type} {c : Codec T} {d d' : Files} {t : RecoveryToken}

/-! ## What the readers see -/

theorem latest_congr (h : ∀ p, d'.lookup (phaseName t p) = d.lookup (phaseName t p)) :
    latest d' t = latest d t := by
  simp only [latest, h]

theorem latest_some {p : TaskPhase} {i : Nat} (h : latest d t = some (p, i)) :
    d.lookup (phaseName t p) = some i := by
  obtain ⟨q, -, hq⟩ := List.exists_of_findSome?_eq_some h
  obtain ⟨j, hj, he⟩ := Option.map_eq_some_iff.mp hq
  obtain ⟨rfl, rfl⟩ := Prod.mk.inj he
  exact hj

theorem latest_none (h : latest d t = none) (p : TaskPhase) :
    d.lookup (phaseName t p) = none := by
  have hall := List.findSome?_eq_none_iff.mp h p (by cases p <;> simp)
  simpa using hall

/-- A new checkpoint of one phase is seen, or hidden by one of a later phase. -/
theorem latest_added {p : TaskPhase} {i : Nat}
    (h : ∀ q, d'.lookup (phaseName t q) = if q = p then some i else d.lookup (phaseName t q)) :
    latest d' t = latest d t ∨ latest d' t = some (p, i) := by
  cases p with
  | succeeded => right; simp [latest, h]
  | converted =>
    cases hs : d.lookup (phaseName t .succeeded) with
    | none => right; simp [latest, h, hs]
    | some j => left; simp [latest, h, hs]
  | media =>
    cases hs : d.lookup (phaseName t .succeeded) with
    | some j => left; simp [latest, h, hs]
    | none =>
      cases hv : d.lookup (phaseName t .converted) with
      | some j => left; simp [latest, h, hs, hv]
      | none => right; simp [latest, h, hs, hv]

/-- Once there is a checkpoint of the last phase, it is the one that is seen. -/
theorem latest_succeeded {i : Nat} (h : d.lookup (phaseName t .succeeded) = some i) :
    latest d t = some (.succeeded, i) := by
  simp [latest, h]

theorem Added.content_old {names : List String} {bytes : Bytes} (h : Added d d' names bytes)
    {i : Nat} (hi : i < d.inodes.length) : d'.content i = d.content i := by
  rw [Directory.content, h.inodes, List.getElem?_append_left hi, Directory.content]

theorem Added.content_new {names : List String} {bytes : Bytes} (h : Added d d' names bytes) :
    d'.content d.inodes.length = some bytes := by
  simp [Directory.content, h.inodes]

theorem inspect_congr (hl : latest d' t = latest d t)
    (hcontent : ∀ p i, latest d t = some (p, i) → d'.content i = d.content i) :
    inspect c d' t = inspect c d t ∧ ∀ context, load c context d' t = load c context d t := by
  cases h : latest d t with
  | none => simp [inspect, load, hl, h]
  | some e =>
    obtain ⟨p, i⟩ := e
    have hbytes : fileBytes d' i = fileBytes d i := by rw [fileBytes, hcontent p i h, fileBytes]
    simp only [inspect, load, hl, h, hbytes, implies_true, and_self]

/-- The memory that `load` charges. -/
def latestCharge (d : Files) (token : RecoveryToken) : Nat :=
  (latest d token).elim 0 fun e => loadCharge (fileBytes d e.2)

theorem read_latest (hc : c.Lawful) {job : Commit T} {bytes : Bytes} {i : Nat}
    (hl : latest d job.token = some (job.phase c, i)) (hb : job.envelope c = .ok bytes)
    (hcontent : d.content i = some bytes) :
    inspect c d job.token = .ok (some (job.metadata c)) ∧
      ∀ context, Room context (latestCharge d job.token) →
        load c context d job.token = .ok (some (job.metadata c, job.payload)) := by
  have hbytes : fileBytes d i = bytes := by rw [fileBytes, hcontent, Option.getD_some]
  have hcharge : latestCharge d job.token = loadCharge bytes := by
    rw [latestCharge, hl, Option.elim_some, hbytes]
  refine ⟨?_, fun context hroom => ?_⟩
  · simp only [inspect, hl, hbytes, inspectFile_envelope hc.authentic hb, Except.map]
  · rw [hcharge] at hroom
    simp only [load, hl, hbytes, loadFile_envelope hc hb hroom, Except.map]

/-! ## Directories that a retry can work on -/

/-- The file holds a complete checkpoint of the phase. -/
def Complete (c : Codec T) (t : RecoveryToken) (p : TaskPhase) (bytes : Bytes) : Prop :=
  ∃ job : Commit T, job.token = t ∧ job.phase c = p ∧ job.envelope c = .ok bytes

structure Ready (c : Codec T) (d : Files) (t : RecoveryToken) : Prop where
  known : Known d
  complete : ∀ p i, d.lookup (phaseName t p) = some i →
    ∃ bytes, d.content i = some bytes ∧ Complete c t p bytes
  media : ∀ i, d.lookup (phaseName t .media) = some i → d.linkCount i = 1

theorem Ready.added (hr : Ready c d t) {names : List String} {bytes : Bytes}
    (h : Added d d' names bytes) (hnew : ∀ p, phaseName t p ∈ names → Complete c t p bytes)
    (hmedia : phaseName t .media ∈ names → names = [phaseName t .media]) : Ready c d' t where
  known := by
    intro n i hn
    rw [h.lookup] at hn
    rw [h.inodes, List.length_append, List.length_singleton]
    split at hn
    · obtain rfl := Option.some.inj hn
      omega
    · have := hr.known n i hn
      omega
  complete := by
    intro p i hp
    rw [h.lookup] at hp
    split at hp
    · rename_i hmem
      obtain rfl := Option.some.inj hp
      exact ⟨bytes, h.content_new, hnew p hmem⟩
    · rw [h.content_old (hr.known _ i hp)]
      exact hr.complete p i hp
  media := by
    intro i hi
    apply (Directory.linkCount_eq_one hi).mpr
    intro m hm
    rw [h.lookup] at hi hm
    split at hi
    · rename_i hmem
      obtain rfl := Option.some.inj hi
      split at hm
      · rename_i hm'
        rw [hmedia hmem] at hm'
        simpa using hm'
      · exact absurd (hr.known _ _ hm) (lt_irrefl _)
    · split at hm
      · obtain rfl := Option.some.inj hm
        exact absurd (hr.known _ _ hi) (lt_irrefl _)
      · exact (Directory.linkCount_eq_one hi).mp (hr.media i hi) m hm

/-- Names go, files stay. -/
theorem Ready.sub (hr : Ready c d t) (hinodes : d'.inodes = d.inodes)
    (h : ∀ n, d'.lookup n = none ∨ d'.lookup n = d.lookup n) : Ready c d' t := by
  have hold : ∀ n i, d'.lookup n = some i → d.lookup n = some i := by
    intro n i hn
    rcases h n with he | he
    · rw [he] at hn
      cases hn
    · rw [← he, hn]
  refine ⟨fun n i hn => ?_, fun p i hp => ?_, fun i hi => ?_⟩
  · rw [hinodes]
    exact hr.known n i (hold n i hn)
  · rw [Directory.content, hinodes]
    exact hr.complete p i (hold _ i hp)
  · have hm := hold _ i hi
    exact (Directory.linkCount_eq_one hi).mpr fun m hm' =>
      (Directory.linkCount_eq_one hm).mp (hr.media i hm) m (hold m i hm')

theorem Ready.read (hc : c.Lawful) (hr : Ready c d t) :
    (latest d t = none ∧ inspect c d t = .ok none ∧ ∀ context, load c context d t = .ok none) ∨
    ∃ job : Commit T, job.token = t ∧ (∃ i, latest d t = some (job.phase c, i)) ∧
      inspect c d t = .ok (some (job.metadata c)) ∧
      ∀ context, Room context (latestCharge d t) →
        load c context d t = .ok (some (job.metadata c, job.payload)) := by
  cases hl : latest d t with
  | none => exact Or.inl ⟨rfl, by simp [inspect, hl], fun context => by simp [load, hl]⟩
  | some e =>
    obtain ⟨p, i⟩ := e
    obtain ⟨bytes, hcontent, job, rfl, rfl, hb⟩ := hr.complete p i (latest_some hl)
    obtain ⟨hinspect, hload⟩ := read_latest hc hl hb hcontent
    exact Or.inr ⟨job, rfl, ⟨i, rfl⟩, hinspect, hload⟩

/-! ## The commits of a retry -/

/-- A commit that a retry may make. -/
structure Fits (c : Codec T) (d : Files) (t : RecoveryToken) (p : TaskPhase) (job : Commit T) :
    Prop where
  token : job.token = t
  phase : job.phase c = p
  envelope : ∃ bytes, job.envelope c = .ok bytes
  fresh : d.lookup job.temporary = none

theorem Fits.congr {p : TaskPhase} {job : Commit T} (h : Fits c d t p job)
    (hd : d'.lookup job.temporary = d.lookup job.temporary) : Fits c d' t p job :=
  ⟨h.token, h.phase, h.envelope, by rw [hd, h.fresh]⟩

theorem Fits.target {p : TaskPhase} {job : Commit T} (h : Fits c d t p job) :
    job.target c = phaseName t p := by
  rw [Commit.target, h.token, h.phase]

/-- The commit of a phase that is free, or of media. -/
theorem Ready.commit (hr : Ready c d t) {p : TaskPhase} {job : Commit T} (h : Fits c d t p job)
    (hfree : p = .media ∨ d.lookup (phaseName t p) = none) :
    ∃ d' bytes, commitInner c d job = (d', .ok ()) ∧ Added d d' [phaseName t p] bytes ∧
      job.envelope c = .ok bytes ∧ Ready c d' t := by
  obtain ⟨bytes, hb⟩ := h.envelope
  have hstart : Startable c d job := by
    refine ⟨hr.known, h.fresh, ?_⟩
    rw [h.target]
    exact hfree.imp (fun hp => by simp [Commit.replace, h.phase, hp]) id
  have hcheck : commitCheck c d job = .ok () := by
    simp only [commitCheck, h.target]
    rcases hfree with rfl | hnone
    · cases hl : d.lookup (phaseName t .media) with
      | none => rfl
      | some i => simp [Commit.replace, h.phase, requireSinglyLinked, hr.media i hl]
    · rw [hnone]
  obtain ⟨d', hcommit, hadded⟩ := commitInner_ok hb hstart hcheck
  rw [h.target] at hadded
  refine ⟨d', bytes, hcommit, hadded, hb, hr.added hadded (fun q hq => ?_) fun hm => ?_⟩
  · obtain ⟨-, rfl⟩ := phaseName_inj (List.mem_singleton.mp hq)
    exact ⟨job, h.token, h.phase, hb⟩
  · rw [List.mem_singleton.mp hm]

/-- Media commits touch the media name alone. -/
theorem Ready.commitMedia (hr : Ready c d t) {jobs : List (Commit T)}
    (h : ∀ job ∈ jobs, Fits c d t .media job) :
    ∃ d', commitAll c d jobs = (d', .ok ()) ∧ Ready c d' t ∧
      ∀ n, n ≠ phaseName t .media → d'.lookup n = d.lookup n := by
  induction jobs generalizing d with
  | nil => exact ⟨d, rfl, hr, fun _ _ => rfl⟩
  | cons job jobs ih =>
    obtain ⟨d1, bytes, hcommit, hadded, -, hr1⟩ := hr.commit (h job (by simp)) (Or.inl rfl)
    have hsame : ∀ n, n ≠ phaseName t .media → d1.lookup n = d.lookup n := by
      intro n hn
      rw [hadded.lookup, if_neg (by simpa using hn)]
    have hrest : ∀ job ∈ jobs, Fits c d1 t .media job := fun job hm =>
      (h job (by simp [hm])).congr (hsame _ (phaseName_ne_temporaryName _ _ _ _).symm)
    obtain ⟨d2, hall, hr2, hsame2⟩ := ih hr1 hrest
    refine ⟨d2, by simp [commitAll, hcommit, hall], hr2, fun n hn => ?_⟩
    rw [hsame2 n hn, hsame n hn]

theorem commitAll_snoc {jobs : List (Commit T)} {job : Commit T}
    (h : commitAll c d jobs = (d', .ok ())) :
    commitAll c d (jobs ++ [job]) = commitInner c d' job := by
  induction jobs generalizing d with
  | nil =>
    obtain ⟨rfl, -⟩ := Prod.mk.inj h
    simp only [List.nil_append, commitAll]
    rcases commitInner c d job with ⟨e, ⟨⟩ | ⟨⟩⟩ <;> rfl
  | cons first jobs ih =>
    simp only [List.cons_append, commitAll] at h ⊢
    rcases hf : commitInner c d first with ⟨e, ⟨⟩ | ⟨⟩⟩
    · simp [hf] at h
    · simp only [hf] at h
      exact ih h

/-- The work of a conversion fits the directory. -/
structure WorkFits (c : Codec T) (d : Files) (t : RecoveryToken) (work : Conversion T) : Prop where
  media : ∀ job ∈ work.media, Fits c d t .media job
  converted : Fits c d t .converted work.converted
  succeeded : Fits c d t .succeeded work.succeeded

theorem removeMedia_spec (d : Files) (t : RecoveryToken) :
    (removeMedia d t).inodes = d.inodes ∧
      ∀ n, (removeMedia d t).lookup n = if n = phaseName t .media then none else d.lookup n := by
  cases hm : d.lookup (phaseName t .media) with
  | none =>
    have hsame : removeMedia d t = d := by simp [removeMedia, unlink, Directory.unlink, hm]
    rw [hsame]
    refine ⟨rfl, fun n => ?_⟩
    split
    · rename_i hn
      rw [hn, hm]
    · rfl
  | some i =>
    obtain ⟨e, he, hinodes, hlookup⟩ := Directory.unlink_ok hm
    have hsame : removeMedia d t = e := by simp [removeMedia, unlink, he]
    rw [hsame]
    exact ⟨hinodes, hlookup⟩

theorem Ready.finish (hc : c.Lawful) (hr : Ready c d t) {job : Commit T}
    (h : Fits c d t .succeeded job) (hfree : d.lookup (phaseName t .succeeded) = none) :
    ∃ d', commitInner c d job = (d', .ok ()) ∧ inspect c d' t = .ok (some (job.metadata c)) := by
  obtain ⟨d', bytes, hcommit, hadded, hb, -⟩ := hr.commit h (Or.inr hfree)
  have hl : latest d' t = some (.succeeded, d.inodes.length) := by
    apply latest_succeeded
    rw [hadded.lookup, if_pos (by simp)]
  obtain rfl := h.token
  rw [← h.phase] at hl
  exact ⟨d', hcommit, (read_latest hc hl hb hadded.content_new).1⟩

/-- A conversion from the start runs through, whatever media checkpoint it finds. -/
theorem Ready.convertFromStart (hc : c.Lawful) (hr : Ready c d t) {work : Conversion T}
    (h : WorkFits c d t work) (hconverted : d.lookup (phaseName t .converted) = none)
    (hsucceeded : d.lookup (phaseName t .succeeded) = none) :
    ∃ d', convertFromStart c d t work = (d', .ok ()) ∧
      inspect c d' t = .ok (some (work.succeeded.metadata c)) := by
  have hne : ∀ p, p ≠ TaskPhase.media → phaseName t p ≠ phaseName t .media :=
    fun p hp he => hp (phaseName_inj he).2
  have htemp : ∀ (job : Commit T) p, job.temporary ≠ phaseName t p :=
    fun job p => (phaseName_ne_temporaryName _ _ _ _).symm
  obtain ⟨d1, hmedia, hr1, hsame1⟩ := hr.commitMedia h.media
  obtain ⟨d2, bytes, hcommit, hadded, -, hr2⟩ := hr1.commit
    (h.converted.congr (hsame1 _ (htemp _ _)))
    (Or.inr (by rw [hsame1 _ (hne _ (by decide)), hconverted]))
  obtain ⟨hinodes, hlookup⟩ := removeMedia_spec d2 t
  have hr3 : Ready c (removeMedia d2 t) t := by
    apply hr2.sub hinodes
    intro n
    rw [hlookup]
    split
    · exact Or.inl rfl
    · exact Or.inr rfl
  have hsame3 : ∀ n, n ≠ phaseName t .media → n ≠ phaseName t .converted →
      (removeMedia d2 t).lookup n = d.lookup n := by
    intro n hm hn
    rw [hlookup, if_neg hm, hadded.lookup, if_neg (by simpa using hn), hsame1 n hm]
  obtain ⟨d4, hfinish, hinspect⟩ := hr3.finish hc
    (h.succeeded.congr (hsame3 _ (htemp _ _) (htemp _ _)))
    (by rw [hsame3 _ (hne _ (by decide)) fun he => absurd (phaseName_inj he).2 (by decide),
      hsucceeded])
  refine ⟨d4, ?_, hinspect⟩
  simp only [Recovery.convertFromStart, commitAll_snoc hmedia, hcommit, hfinish]

/-! ## The retry -/

theorem openLock_spec (d : Files) (name : String) :
    openLock d name = d ∨ Added d (openLock d name) [name] [] := by
  cases hl : d.lookup name with
  | some i => left; simp [openLock, Directory.create, hl]
  | none =>
    right
    simp only [openLock, Directory.create, hl]
    exact ⟨rfl, fun n => by simp [Directory.lookup_def]⟩

/-- The lock file is nothing to the checkpoints. -/
theorem Ready.openLock (hr : Ready c d t) :
    Ready c (openLock d (lockName t)) t ∧
    (∀ p, (Recovery.openLock d (lockName t)).lookup (phaseName t p) = d.lookup (phaseName t p)) ∧
    (∀ nonce, (Recovery.openLock d (lockName t)).lookup (temporaryName t nonce) =
      d.lookup (temporaryName t nonce)) ∧
    inspect c (Recovery.openLock d (lockName t)) t = inspect c d t ∧
    (∀ context, load c context (Recovery.openLock d (lockName t)) t = load c context d t) := by
  rcases openLock_spec d (lockName t) with he | hadded
  · rw [he]
    exact ⟨hr, fun _ => rfl, fun _ => rfl, rfl, fun _ => rfl⟩
  · have hphase : ∀ p, (Recovery.openLock d (lockName t)).lookup (phaseName t p) =
        d.lookup (phaseName t p) := by
      intro p
      rw [hadded.lookup, if_neg (by simpa using phaseName_ne_lockName t t p)]
    obtain ⟨hinspect, hload⟩ := inspect_congr (c := c) (latest_congr hphase) fun p i hl =>
      hadded.content_old (hr.known _ i (latest_some hl))
    refine ⟨hr.added hadded (fun p hp => ?_) fun hm => ?_, hphase, fun nonce => ?_, hinspect,
      hload⟩
    · exact absurd (List.mem_singleton.mp hp) (phaseName_ne_lockName t t p)
    · exact absurd (List.mem_singleton.mp hm) (phaseName_ne_lockName t t _)
    · have hne : temporaryName t nonce ≠ lockName t := by
        intro he
        have hhidden := hidden_temporaryName t nonce
        rw [he] at hhidden
        exact not_hidden_lockName t hhidden
      rw [hadded.lookup, if_neg (by simpa using hne)]

/-- **A retry proceeds**: from a directory with complete checkpoints, and with
the fingerprints of the one it finds, it ends with the final checkpoint. -/
theorem Ready.convert (hc : c.Lawful) (hr : Ready c d t) {work : Conversion T}
    (h : WorkFits c d t work) {input options : Fingerprint}
    (hcompatible : ∀ m, inspect c d t = .ok (some m) →
      m.inputFingerprint = input.text ∧ m.optionsFingerprint = options.text)
    {context : Memory.State} (hroom : Room context (latestCharge d t)) :
    ∃ d' m, convert c context d t input options work = (d', .ok ()) ∧
      inspect c d' t = .ok (some m) ∧ m.phase = .succeeded := by
  obtain ⟨hr1, hphase, htemp, hinspect1, hload1⟩ := hr.openLock
  have hfits : ∀ {p} {job : Commit T}, Fits c d t p job →
      Fits c (Recovery.openLock d (lockName t)) t p job := by
    intro p job hj
    apply hj.congr
    rw [Commit.temporary, hj.token, htemp]
  have hwork : WorkFits c (Recovery.openLock d (lockName t)) t work :=
    ⟨fun job hm => hfits (h.media job hm), hfits h.converted, hfits h.succeeded⟩
  have hmeta : ∀ job : Commit T, (job.metadata c).phase = job.phase c := fun _ => rfl
  rcases hr.read hc with ⟨hl, hinspect, hload⟩ | ⟨job, htoken, ⟨i, hl⟩, hinspect, hload⟩
  · obtain ⟨d', hrun, hend⟩ := hr1.convertFromStart hc hwork
      (by rw [hphase, latest_none hl]) (by rw [hphase, latest_none hl])
    refine ⟨d', _, ?_, hend, by rw [hmeta, h.succeeded.phase]⟩
    simp [Recovery.convert, hinspect1, hinspect, hload1, hload, hrun, bind, Except.bind, pure,
      Except.pure]
  · obtain ⟨hin, hopt⟩ := hcompatible _ hinspect
    have hcheck : checkFingerprints (job.metadata c) input options = .ok () := by
      simp [checkFingerprints, hin, hopt]
    have hpayload : (job.metadata c).phase = c.phase job.payload := rfl
    have hfound := latest_some hl
    -- the retry goes on from the phase that it has found
    simp only [Recovery.convert, hinspect1, hinspect, hload1, hload context hroom, hcheck,
      hpayload, bind, Except.bind, pure, Except.pure, ne_eq, not_true_eq_false, ↓reduceIte]
    rw [show c.phase job.payload = job.phase c from rfl]
    cases hp : job.phase c with
    | succeeded =>
      exact ⟨_, _, rfl, hinspect1.trans hinspect, by rw [hmeta, hp]⟩
    | converted =>
      have hfree : d.lookup (phaseName t .succeeded) = none := by
        cases hs : d.lookup (phaseName t .succeeded) with
        | none => rfl
        | some j =>
          rw [latest_succeeded hs, hp] at hl
          cases hl
      obtain ⟨d', hcommit, hend⟩ := hr1.finish hc hwork.succeeded (by rw [hphase, hfree])
      exact ⟨d', _, hcommit, hend, by rw [hmeta, h.succeeded.phase]⟩
    | media =>
      have hfree : ∀ p, p ≠ TaskPhase.media → d.lookup (phaseName t p) = none := by
        intro p hne
        cases hs : d.lookup (phaseName t p) with
        | none => rfl
        | some j =>
          rw [hp] at hl
          cases p with
          | succeeded =>
            rw [latest_succeeded hs] at hl
            cases hl
          | converted =>
            cases hs' : d.lookup (phaseName t .succeeded) <;> simp [latest, hs, hs'] at hl
          | media => exact absurd rfl hne
      obtain ⟨d', hrun, hend⟩ := hr1.convertFromStart hc hwork
        (by rw [hphase, hfree _ (by decide)]) (by rw [hphase, hfree _ (by decide)])
      exact ⟨d', _, hrun, hend, by rw [hmeta, h.succeeded.phase]⟩

end

end IntoMarkdown.Recovery
