import PmxAgents.Backup.S3Push

/-!
# What a resumed upload completes

A successful attempt completes an object of the sizes of its own parts. The object
is the uploaded file exactly if the parts it reused are parts of that file.
-/

namespace PmxAgents.Backup

open Lib Lib.Cbor Lib.FileSystem Lib.Slices Lib.Text Lib.Runs

/-- The upload an attempt resumes. -/
def World.resumed (w : World) (a : Attempt) : Option String :=
  (loadUploadState w a.statePath).bind fun state => state.resumes a

/-- The parts that the attempt will reuse are the parts of the file it uploads. -/
def ResumeMatches (C : Sync.Cipher) (w : World) (a : Attempt) : Prop :=
  ∀ id u, w.resumed a = some id → w.upload a.bucket a.key id = some u →
    ∀ s ∈ slices multipartPartSize (a.bytes C), ∀ part,
      reused (listCompletedParts u) s.1 s.2 = some part → part.content = s.2

/-! ## The steps of an attempt -/

section Steps
variable {f : Fates} {w w' : World} {a : Attempt} {id : String} {u : Upload}
  {existing : ℕ → Option Part}

theorem saveUploadState_uploads {fate : SaveFate} {s : UploadState} {path : Option Path} :
    (saveUploadState fate w s path).1.uploads = w.uploads := by
  cases path with
  | none => rfl
  | some path => cases fate <;> rfl

theorem upload_congr (h : w'.uploads = w.uploads) (bucket key id : String) :
    w'.upload bucket key id = w.upload bucket key id := by
  rw [World.upload, World.upload, h]

theorem upload_update {uploads : String → Slot}
    (h : uploads = Function.update w.uploads id (.opened u))
    (hw : w'.uploads = uploads) : w'.upload u.bucket u.key id = some u := by
  rw [World.upload, hw, h, Function.update_self]
  simp

theorem createMultipartUpload_some {bucket key : String}
    (h : w.createMultipartUpload bucket key id = some w') :
    trimSpace id = id ∧ w'.upload bucket key id = some ⟨bucket, key, fun _ => none⟩ := by
  unfold World.createMultipartUpload at h
  split at h
  · split at h
    · rename_i hid
      cases h
      exact ⟨hid, upload_update (u := ⟨bucket, key, fun _ => none⟩) rfl rfl⟩
    · cases h
  · cases h

/-- An attempt goes on with the upload it resumes, or with a new one without parts. -/
theorem obtainUpload_some (h : obtainUpload f w a = (w', some id)) :
    (w.resumed a = some id ∧ w' = w) ∨
      (w.resumed a = none ∧
        w'.upload a.bucket a.key id = some ⟨a.bucket, a.key, fun _ => none⟩) := by
  unfold obtainUpload at h
  cases hload : loadUploadState w a.statePath with
  | none =>
      rw [hload] at h
      cases h
  | some state =>
      simp only [hload] at h
      cases hres : state.resumes a with
      | some id' =>
          simp only [hres] at h
          cases h
          exact Or.inl ⟨by simp [World.resumed, hload, hres], rfl⟩
      | none =>
          simp only [hres] at h
          refine Or.inr ⟨by simp [World.resumed, hload, hres], ?_⟩
          split at h
          · cases h
          · cases h
          · split at h
            · cases h
            · rename_i w₁ hcreate
              obtain ⟨hid, hup⟩ := createMultipartUpload_some hcreate
              split at h
              · cases h
              · split at h
                · rename_i w₂ hsave
                  cases h
                  have hsame : w'.uploads = w₁.uploads :=
                    (congrArg (fun r => r.1.uploads) hsave).symm.trans saveUploadState_uploads
                  rw [upload_congr hsame, hid, hup]
                · cases h

/-- The content S3 has for a slice once the loop has passed it. -/
def contentOf (existing : ℕ → Option Part) (s : ℕ × Bytes) : Bytes :=
  ((reused existing s.1 s.2).map Part.content).getD s.2

theorem length_contentOf (s : ℕ × Bytes) : (contentOf existing s).length = s.2.length := by
  unfold contentOf
  cases h : reused existing s.1 s.2 with
  | none => rfl
  | some part =>
      have hfit := (Option.filter_eq_some_iff.mp h).2
      simpa using hfit

theorem uploadPart_some {bucket key : String} {n : ℕ} {part : Part}
    (hup : w.upload bucket key id = some u) (h : w.uploadPart bucket key id n part = some w') :
    w'.upload bucket key id = some { u with parts := Function.update u.parts n (some part) } := by
  rw [World.uploadPart, hup, Option.map_some, Option.some.injEq] at h
  have hobj : u.bucket = bucket ∧ u.key = key := by
    unfold World.upload at hup
    split at hup
    · split at hup
      · rename_i hmatch
        cases hup
        exact hmatch
      · cases hup
    · cases hup
  obtain ⟨rfl, rfl⟩ := hobj
  subst h
  exact upload_update (u := { u with parts := Function.update u.parts n (some part) }) rfl rfl

/-- The stored parts an attempt relies on are there under their tags. -/
def Stored (existing : ℕ → Option Part) (u : Upload) (s : ℕ × Bytes) : Prop :=
  ∀ part, reused existing s.1 s.2 = some part → ∃ stored, u.parts s.1 = some stored ∧
    trimSpace stored.etag = trimSpace part.etag ∧ stored.content = part.content

theorem assemble_cons {n : ℕ} {etag : String} {l : List (ℕ × String)} {part : Part}
    {contents : List Bytes} (hpart : u.parts n = some part)
    (htag : trimSpace part.etag = trimSpace etag) (hrest : u.assemble l = some contents) :
    u.assemble ((n, etag) :: l) = some (part.content :: contents) := by
  simp only [Upload.assemble, hpart, hrest, if_pos htag]

/-- From the parts of `u` a loop over the slices has made those of `u'` and the list `l`: under
the number of each slice stands the content the loop decided on. -/
structure Uploaded (existing : ℕ → Option Part) (sl : List (ℕ × Bytes)) (u u' : Upload)
    (l : List (ℕ × String)) : Prop where
  numbers : l.map Prod.fst = sl.map Prod.fst
  others : ∀ n, n ∉ sl.map Prod.fst → u'.parts n = u.parts n
  assembled : u'.assemble l = some (sl.map (contentOf existing))

/-- One more slice in front, whose part is there before the loop goes on. -/
theorem Uploaded.cons {sl : List (ℕ × Bytes)} {u₁ u' : Upload} {l : List (ℕ × String)} {n : ℕ}
    {slice : Bytes} {part : Part} {etag : String} (h : Uploaded existing sl u₁ u' l)
    (hn : n ∉ sl.map Prod.fst) (hothers : ∀ m, m ≠ n → u₁.parts m = u.parts m)
    (hpart : u₁.parts n = some part) (htag : trimSpace part.etag = trimSpace etag)
    (hcontent : part.content = contentOf existing (n, slice)) :
    Uploaded existing ((n, slice) :: sl) u u' ((n, etag) :: l) where
  numbers := by simp [h.numbers]
  others m hm := by
    rw [List.map_cons, List.mem_cons, not_or] at hm
    rw [h.others m hm.2, hothers m hm.1]
  assembled := by
    rw [assemble_cons ((h.others n hn).trans hpart) htag h.assembled, List.map_cons, hcontent]

/-- A loop that ends well has uploaded or reused a part for each slice. -/
theorem uploadParts_some {sl : List (ℕ × Bytes)} {completed completed' : List (ℕ × String)}
    (hup : w.upload a.bucket a.key id = some u) (hstored : ∀ s ∈ sl, Stored existing u s)
    (hnd : (sl.map Prod.fst).Nodup)
    (h : uploadParts f a id existing sl completed w = (w', some completed')) :
    ∃ u' l, w'.upload a.bucket a.key id = some u' ∧ completed' = completed ++ l ∧
      Uploaded existing sl u u' l := by
  induction sl generalizing w u completed with
  | nil =>
      cases h
      exact ⟨u, [], hup, by simp, rfl, fun _ _ => rfl, rfl⟩
  | cons s rest ih =>
      obtain ⟨n, slice⟩ := s
      rw [List.map_cons, List.nodup_cons] at hnd
      have hrest : ∀ s ∈ rest, Stored existing u s :=
        fun s hs => hstored s (List.mem_cons_of_mem _ hs)
      rw [uploadParts] at h
      split at h
      · rename_i part hreused
        obtain ⟨u', l, hup', rfl, hdone⟩ := ih hup hrest hnd.2 h
        obtain ⟨stored, hpart, htag, hcontent⟩ := hstored (n, slice) List.mem_cons_self part hreused
        refine ⟨u', (n, part.etag) :: l, hup', by simp, ?_⟩
        exact hdone.cons hnd.1 (fun _ _ => rfl) hpart htag (by simp [contentOf, hreused, hcontent])
      · rename_i hreused
        split at h
        · cases h
        · cases h
        · rename_i etag _
          split at h
          · cases h
          · rename_i w₁ hput
            split at h
            · cases h
            · have hothers : ∀ m, m ≠ n →
                  Function.update u.parts n (some ⟨etag, slice⟩) m = u.parts m :=
                fun m hm => Function.update_of_ne hm _ _
              have hrest₁ : ∀ s ∈ rest, Stored existing
                  { u with parts := Function.update u.parts n (some ⟨etag, slice⟩) } s := by
                intro s hs part hpart
                have hne : s.1 ≠ n := fun heq => hnd.1 (List.mem_map.mpr ⟨s, hs, heq⟩)
                obtain ⟨stored, hst, hrem⟩ := hrest s hs part hpart
                exact ⟨stored, (hothers s.1 hne).trans hst, hrem⟩
              obtain ⟨u', l, hup', rfl, hdone⟩ := ih (uploadPart_some hup hput) hrest₁ hnd.2 h
              refine ⟨u', (n, etag) :: l, hup', by simp, ?_⟩
              exact hdone.cons hnd.1 hothers (Function.update_self _ _ _) rfl
                (by simp [contentOf, hreused])

theorem stored_listCompletedParts (s : ℕ × Bytes) : Stored (listCompletedParts u) u s := by
  intro part h
  have hlist := (Option.filter_eq_some_iff.mp h).1
  unfold listCompletedParts at hlist
  split at hlist
  · cases hlist
  · rename_i stored hst
    split at hlist
    · cases hlist
      exact ⟨stored, hst, by simp, rfl⟩
    · cases hlist

theorem removeStateFile_objects {path : Option Path} :
    (removeStateFile f w path).objects = w.objects := by
  cases path with
  | none => rfl
  | some path =>
      unfold removeStateFile
      dsimp only
      split <;> rfl

theorem finishUpload_true {completed : List (ℕ × String)} {contents : List Bytes}
    (hup : w.upload a.bucket a.key id = some u)
    (hsorted : completed.Pairwise fun x y => x.1 ≤ y.1)
    (hasm : u.assemble completed = some contents)
    (h : finishUpload f w a id completed = (w', true)) :
    w'.objects (a.bucket, a.key) = some contents.flatten := by
  simp only [finishUpload, hsorted.insertionSort_eq] at h
  split at h
  · cases h
  · cases h
  · split at h
    · cases h
    · rename_i w₁ hcomp
      simp only [World.completeMultipartUpload, hup, hasm, Option.map_some,
        Option.some.injEq] at hcomp
      subst hcomp
      obtain ⟨hw, -⟩ := Prod.mk.inj h
      rw [← hw, removeStateFile_objects]
      exact Function.update_self _ _ _

end Steps

/-! ## One attempt -/

section Attempt
variable {C : Sync.Cipher} {f : Fates} {w w' : World} {a : Attempt}

/-- A successful attempt completes an object made of parts it found and parts it sent. The
parts it found belong to the upload it resumed. -/
theorem push_true (h : push C f w a = (w', true)) :
    ∃ existing, w'.objects (a.bucket, a.key) =
        some ((slices multipartPartSize (a.bytes C)).map (contentOf existing)).flatten ∧
      ((w.resumed a = none ∧ existing = fun _ => none) ∨
        ∃ id u, w.resumed a = some id ∧ w.upload a.bucket a.key id = some u ∧
          existing = listCompletedParts u) := by
  unfold push at h
  split at h
  · cases h
  · unfold multipartPush at h
    split at h
    · cases h
    · rename_i w₁ id hobtain
      split at h
      · cases h
      · rename_i u hup
        split at h
        · cases h
        · split at h
          · cases h
          · rename_i w₂ completed hparts
            have hascending := pairwise_slices multipartPartSize (a.bytes C)
            obtain ⟨u', _, hup', rfl, hdone⟩ := uploadParts_some hup
              (fun s _ => stored_listCompletedParts s) (hascending.imp fun h => h.ne) hparts
            have hsorted : completed.Pairwise fun x y => x.1 ≤ y.1 := by
              rw [← hdone.numbers, List.pairwise_map] at hascending
              exact hascending.imp le_of_lt
            refine ⟨_, finishUpload_true hup' hsorted hdone.assembled h, ?_⟩
            rcases obtainUpload_some hobtain with ⟨hres, rfl⟩ | ⟨hres, hnew⟩
            · exact Or.inr ⟨id, u, hres, hup, rfl⟩
            · rw [hup] at hnew
              cases hnew
              exact Or.inl ⟨hres, rfl⟩

/-- The object of a successful attempt is the file it uploaded exactly if the parts it reused
are parts of that file. -/
theorem push_object_iff (h : push C f w a = (w', true)) :
    w'.objects (a.bucket, a.key) = some (a.bytes C) ↔ ResumeMatches C w a := by
  obtain ⟨existing, hobj, hfrom⟩ := push_true h
  rw [hobj, Option.some.injEq,
    flatten_map_eq_iff (by decide) fun s _ => length_contentOf s]
  rcases hfrom with ⟨hres, rfl⟩ | ⟨id, u, hres, hup, rfl⟩
  · constructor
    · intro _ id u hres'
      rw [hres] at hres'
      cases hres'
    · intro _ s _
      rfl
  · constructor
    · intro hall id' u' hres' hup' s hs part hpart
      rw [hres, Option.some.injEq] at hres'
      subst hres'
      rw [hup, Option.some.injEq] at hup'
      subst hup'
      have hcontent := hall s hs
      simpa [contentOf, hpart] using hcontent
    · intro hmatch s hs
      unfold contentOf
      cases hpart : reused (listCompletedParts u) s.1 s.2 with
      | none => rfl
      | some part => exact hmatch id u hres hup s hs part hpart

end Attempt

/-! ## Histories of attempts -/

/-- One attempt of a history, with its fates. -/
def attemptStep (C : Sync.Cipher) (w : World) (e : Attempt × Fates) : Option World :=
  some (push C e.2 w e.1).1

/-- If the attempt returns success, the object is the file it uploaded. -/
def Faithful (C : Sync.Cipher) (w : World) (e : Attempt × Fates) : Prop :=
  (push C e.2 w e.1).2 = true →
    (push C e.2 w e.1).1.objects (e.1.bucket, e.1.key) = some (e.1.bytes C)

/-- In a history every successful attempt leaves the file it uploaded exactly if at the start of
every successful attempt the parts to be reused are parts of its file. -/
theorem history_faithful_iff (C : Sync.Cipher) (w : World) (history : List (Attempt × Fates)) :
    Admits (attemptStep C) (Faithful C) w history ↔
      Admits (attemptStep C)
        (fun w e => (push C e.2 w e.1).2 = true → ResumeMatches C w e.1) w history := by
  refine admits_congr fun w e => ?_
  exact forall_congr' fun hok => push_object_iff (f := e.2) (Prod.ext rfl hok)

def newWorld : World :=
  { uploads := fun _ => .unused
    objects := fun _ => none
    stateFiles := fun _ => .absent }

def pushOf (source : Bytes) : Attempt :=
  { jobID := "job", localPath := ["dump", "a.vma"], bucket := "b", key := "k", source,
    encryption := none }

/-- Everything goes well up to the completion. -/
def fatesUpTo (complete : CompleteFate) : Fates :=
  { openFile := true, create := .done "u1", save := .done, list := true, part := fun _ => .done "e",
    complete, removeState := true, returns := true }

/-- A cipher that leaves the text as it is. -/
def clearText : Sync.Cipher := ⟨fun _ _ text => text, fun _ _ text => some text⟩

/-- The file is replaced after an interrupted attempt: the next one succeeds and completes the
object with the content of the old file. -/
theorem history_unfaithful :
    let w := (push clearText (fatesUpTo .refused) newWorld (pushOf [0])).1
    let last := push clearText (fatesUpTo .done) w (pushOf [1])
    last.2 = true ∧ last.1.objects ("b", "k") = some [0] ∧ (pushOf [1]).bytes clearText = [1] := by
  decide

end PmxAgents.Backup
