import Aks3.Engine.Limits

/-!
# The format stamp of a manifest

A manifest is stamped when it is made and keeps its stamp from then on: an upload
reads the manifest of its key, puts a version into it and writes it back as it
came. `formatAt` is the stamp the next manifest of a key will carry, and no upload
changes it. So the manifests a run of uploads writes carry this build's format
exactly when every key it stored had no manifest, or one of that format, before.
-/

set_option autoImplicit false

namespace Aks3.Engine

open Lib

variable {env : Env OsName} {C : Crates} {w w' : World OsName} {b k : String}

/-! ## One upload -/

/-- The stamp of a key's manifest, or the one it gets when it is made. -/
def formatAt (C : Crates) (t : FileTree OsName) (b k : String) : Nat :=
  match manifestAt C t b k with
  | .ok m => (m.getD newManifest).format
  | .error _ => MANIFEST_FORMAT

/-- A data directory with manifests of this build's format or an earlier one. -/
structure Readable (C : Crates) (fits : OsName → Bool) (t : FileTree OsName) : Prop
    extends Ready fits t where
  legible : ∀ b, Legible C t b

theorem format_le_of_manifestAt {t : FileTree OsName} {m : VersionManifest}
    (h : manifestAt C t b k = .ok (some m)) : m.format ≤ MANIFEST_FORMAT := by
  rw [manifestAt] at h
  split at h
  · cases h
  · rename_i bytes _
    cases hp : parseManifest C (Place.manifest b k).path bytes with
    | error e => simp [hp, Except.map] at h
    | ok m' =>
        obtain rfl : m' = m := by simpa [hp, Except.map] using h
        rw [parseManifest] at hp
        split at hp
        · cases hp
        · split at hp
          · cases hp
          · cases hp
            omega

/-- What one upload does to the manifests: it writes its own, with the stamp that was
there, or none. -/
structure Uploaded (C : Crates) (t t' : FileTree OsName) (b k : String) (stored : Bool) :
    Prop where
  own : stored = true → ∃ m, manifestAt C t' b k = .ok (some m) ∧ m.format = formatAt C t b k
  others : ∀ b' k', ¬ (stored = true ∧ b' = b ∧ k' = k) →
    manifestAt C t' b' k' = manifestAt C t b' k'

theorem Uploaded.formatAt_eq {t t' : FileTree OsName} {stored : Bool}
    (h : Uploaded C t t' b k stored) (b' k' : String) :
    formatAt C t' b' k' = formatAt C t b' k' := by
  by_cases hbk : stored = true ∧ b' = b ∧ k' = k
  · obtain ⟨hs, rfl, rfl⟩ := hbk
    obtain ⟨m, hm, hformat⟩ := h.own hs
    rw [← hformat, formatAt, hm]
    rfl
  · rw [formatAt, h.others b' k' hbk, formatAt]

theorem Uploaded.legible {t t' : FileTree OsName} {stored : Bool}
    (h : Uploaded C t t' b k stored) (hl : ∀ b, Legible C t b) (b' : String) :
    Legible C t' b' := by
  intro k'
  by_cases hbk : stored = true ∧ b' = b ∧ k' = k
  · obtain ⟨hs, rfl, rfl⟩ := hbk
    obtain ⟨m, hm, -⟩ := h.own hs
    exact ⟨some m, hm⟩
  · rw [h.others b' k' hbk]
    exact hl b' k'

/-- Nothing but the manifest of a stored key changes. -/
theorem Uploaded.of_error {t t' : FileTree OsName} (hfile : ∀ q, t'.fileAt q = t.fileAt q)
    (b k : String) : Uploaded C t t' b k false :=
  ⟨by simp, fun b' k' _ => manifestAt_congr (hfile _)⟩

/-- **An upload keeps the stamp of the manifest it rewrites.** -/
theorem putObject_uploaded (hown : OwnNames env) (h : Readable C env.fits w.tree)
    (b k : String) (body : ByteStream) (opts : PutOpts) {resp : Resp}
    (hrun : runAlone env (serve C (.putObject b k body opts)) w = (resp, w')) :
    Readable C env.fits w'.tree ∧ Uploaded C w.tree w'.tree b k resp.toBool := by
  have hdone : ∀ stored, Ready env.fits w'.tree → Uploaded C w.tree w'.tree b k stored →
      resp.toBool = stored →
      Readable C env.fits w'.tree ∧ Uploaded C w.tree w'.tree b k resp.toBool := by
    rintro stored hr hu rfl
    exact ⟨{ hr with legible := hu.legible h.legible }, hu⟩
  by_cases hb : isValidBucketName b = true ∧ w.tree.IsDir (bucketDir b)
  swap
  · obtain ⟨w₁, hrun₁, ht⟩ := noBucket_run (C := C) (r := .putObject b k body opts) hown h.shaped
      rfl hb
    obtain ⟨rfl, rfl⟩ := Prod.mk.inj (hrun.symm.trans hrun₁)
    have htree : w'.tree = w.tree := by rw [World.tree, ht.fs]
    exact hdone false (htree ▸ h.toReady) (.of_error (fun q => by rw [htree]) b k) rfl
  obtain ⟨hv, hd⟩ := hb
  cases hc : collect body with
  | error e =>
      obtain ⟨w₁, hrun₁, hfile, hdir, -⟩ :=
        putObject_broken (C := C) (k := k) hown h.toReady hv hd hc opts
      obtain ⟨rfl, rfl⟩ := Prod.mk.inj (hrun.symm.trans hrun₁)
      exact hdone false (h.toReady.of_same hfile hdir) (.of_error hfile b k) rfl
  | ok bytes =>
      by_cases hk : Fit env.fits (keyToRelPath k)
      swap
      · obtain ⟨w₁, hrun₁, hfile, hdir⟩ :=
          putObject_refused (C := C) hown hv hk h.toReady hd hc opts
        obtain ⟨rfl, rfl⟩ := Prod.mk.inj (hrun.symm.trans hrun₁)
        exact hdone false (h.toReady.leave (hown.objects_fit hv) hfile hdir)
          (.of_error hfile b k) rfl
      obtain ⟨m, hm⟩ := h.legible b k
      have hst := hown.storable hv hk
      obtain ⟨w₁, hrun₁, hfile, hdir, -⟩ := putObject_run hown hst h.toReady hv hd hm hc opts
      obtain ⟨rfl, rfl⟩ := Prod.mk.inj (hrun.symm.trans hrun₁)
      refine hdone true (h.toReady.put hst hfile hdir) ⟨fun _ => ?_, fun b' k' hbk => ?_⟩ rfl
      · refine ⟨(m.getD newManifest).upsert (bodyEntry C opts bytes w.clock), ?_, ?_⟩
        · have hle : ((m.getD newManifest).upsert (bodyEntry C opts bytes w.clock)).format ≤
              MANIFEST_FORMAT := by
            cases m with
            | none => exact le_rfl
            | some m =>
                have hle := format_le_of_manifestAt hm
                exact hle
          rw [manifestAt, hfile, if_pos rfl]
          simp only
          rw [parseManifest_toVec C _ hle]
          rfl
        · rw [formatAt, hm]
          rfl
      · refine manifestAt_congr ?_
        rw [hfile, if_neg (by simpa using hbk), if_neg (by simp)]

/-! ## A run of uploads -/

/-- An upload and the time it comes at. -/
structure Put where
  now : Nat
  bucket : String
  key : String
  body : ByteStream
  opts : PutOpts

def Put.req (p : Put) : Nat × Req := (p.now, .putObject p.bucket p.key p.body p.opts)

/-- The keys whose upload was acknowledged. -/
def storedKeys (puts : List Put) (resps : List Resp) : List (String × String) :=
  ((puts.zip resps).filter fun x => x.2.toBool).map fun x => (x.1.bucket, x.1.key)

/-- What a run of uploads does to the manifests. -/
theorem puts_uploaded (hown : OwnNames env) (puts : List Put) :
    ∀ {w : World OsName}, Readable C env.fits w.tree →
      ∀ {resps : List Resp} {w' : World OsName}, serveAll env C w (puts.map Put.req) = (resps, w') →
        Readable C env.fits w'.tree ∧
        (∀ b k, formatAt C w'.tree b k = formatAt C w.tree b k) ∧
        (∀ b k, (b, k) ∈ storedKeys puts resps → ∃ m, manifestAt C w'.tree b k = .ok (some m)) ∧
        ∀ b k, (b, k) ∉ storedKeys puts resps → manifestAt C w'.tree b k =
          manifestAt C w.tree b k := by
  induction puts with
  | nil =>
      rintro w h resps w' hrun
      cases hrun
      exact ⟨h, fun _ _ => rfl, by simp [storedKeys], fun _ _ _ => rfl⟩
  | cons p puts ih =>
      rintro w h resps w' hrun
      obtain ⟨resp, w₁, hput⟩ : ∃ resp w₁, runAlone env (serve C p.req.2)
        { w with clock := p.now } =
        (resp, w₁) := ⟨_, _, rfl⟩
      obtain ⟨rest, w₂, hrest⟩ : ∃ rest w₂, serveAll env C w₁ (puts.map Put.req) = (rest, w₂) :=
        ⟨_, _, rfl⟩
      have hall : serveAll env C w ((p :: puts).map Put.req) = (resp :: rest, w₂) := by
        rw [List.map_cons, Put.req, serveAll]
        rw [Put.req] at hput
        rw [hput]
        simp only [hrest]
      obtain ⟨rfl, rfl⟩ := Prod.mk.inj (hrun.symm.trans hall)
      obtain ⟨h₁, hup⟩ := putObject_uploaded (w := { w with clock := p.now }) hown h _ _ _ _ hput
      obtain ⟨h₂, hformat, hstored, hothers⟩ := ih h₁ hrest
      have hmem : ∀ b k, (b, k) ∈ storedKeys (p :: puts) (resp :: rest) ↔
          (resp.toBool = true ∧ b = p.bucket ∧ k = p.key) ∨ (b, k) ∈ storedKeys puts rest := by
        intro b k
        rw [storedKeys, storedKeys, List.zip_cons_cons, List.filter_cons]
        split <;> simp_all
      refine ⟨h₂, fun b k => (hformat b k).trans (hup.formatAt_eq b k), fun b k hbk => ?_,
        fun b k hbk => ?_⟩
      · by_cases hlater : (b, k) ∈ storedKeys puts rest
        · exact hstored b k hlater
        · obtain ⟨hs, rfl, rfl⟩ := ((hmem b k).mp hbk).resolve_right hlater
          obtain ⟨m, hm, -⟩ := hup.own hs
          exact ⟨m, (hothers _ _ hlater).trans hm⟩
      · rw [hmem, not_or] at hbk
        exact (hothers b k hbk.2).trans (hup.others b k hbk.1)

/-- A manifest that an earlier build would rewrite without its checksum. -/
def Losable (C : Crates) (t : FileTree OsName) : Prop :=
  ∃ b k m, manifestAt C t b k = .ok (some m) ∧ m.format < 2 ∧ ∃ e ∈ m.versions, e.checksum ≠ none

/-- **The manifests a run of uploads has written carry this build's format exactly when
every key it stored had no manifest, or one of this format, before.** Then no
checksum can be lost that could not be lost before. -/
theorem manifest_format_iff (hown : OwnNames env) (h : Readable C env.fits w.tree)
    (puts : List Put) {resps : List Resp}
    (hrun : serveAll env C w (puts.map Put.req) = (resps, w')) :
    ((∀ b k, (b, k) ∈ storedKeys puts resps →
        ∃ m, manifestAt C w'.tree b k = .ok (some m) ∧ m.format = MANIFEST_FORMAT) ↔
      ∀ b k, (b, k) ∈ storedKeys puts resps →
        ∀ m, manifestAt C w.tree b k = .ok (some m) → m.format = MANIFEST_FORMAT) ∧
    ((∀ b k, (b, k) ∈ storedKeys puts resps →
        ∀ m, manifestAt C w.tree b k = .ok (some m) → m.format = MANIFEST_FORMAT) →
      Losable C w'.tree → Losable C w.tree) := by
  obtain ⟨-, hformat, hstored, hothers⟩ := puts_uploaded hown puts h hrun
  have hstamp : ∀ {t : FileTree OsName} {b k : String} {m : VersionManifest},
      manifestAt C t b k = .ok (some m) → formatAt C t b k = m.format := by
    intro t b k m hm
    rw [formatAt, hm]
    rfl
  have hiff : (∀ b k, (b, k) ∈ storedKeys puts resps →
        ∃ m, manifestAt C w'.tree b k = .ok (some m) ∧ m.format = MANIFEST_FORMAT) ↔
      ∀ b k, (b, k) ∈ storedKeys puts resps →
        ∀ m, manifestAt C w.tree b k = .ok (some m) → m.format = MANIFEST_FORMAT := by
    refine forall₃_congr fun b k hbk => ?_
    obtain ⟨m, hm⟩ := hstored b k hbk
    have hm' := hstamp hm
    rw [hformat] at hm'
    constructor
    · rintro ⟨m₁, hm₁, hf⟩ m₀ hm₀
      rw [← hstamp hm₀, ← hformat, hstamp hm₁, hf]
    · intro hold
      refine ⟨m, hm, ?_⟩
      rw [← hm', formatAt]
      obtain ⟨m₀, hm₀⟩ := h.legible b k
      rw [hm₀]
      cases m₀ with
      | none => rfl
      | some m₀ => exact hold m₀ hm₀
  refine ⟨hiff, fun hold => ?_⟩
  rintro ⟨b, k, m, hm, hlt, hsum⟩
  by_cases hbk : (b, k) ∈ storedKeys puts resps
  · obtain ⟨m', hm', hf⟩ := hiff.mpr hold b k hbk
    rw [hm] at hm'
    cases hm'
    exact absurd hlt (by rw [hf]; decide)
  · exact ⟨b, k, m, (hothers b k hbk).symm.trans hm, hlt, hsum⟩

/-- The manifest an earlier build made of the body `a`. -/
def earlierManifest : VersionManifest := { sampleManifest etagA with format := 1 }

def earlierText : Bytes :=
  utf8 ("\x7b\"format\":1,\"versions\":[\x7b\"version_id\":\"null\",\"etag\":\"" ++ etagA ++
    "\",\"size\":1,\"content_type\":\"application/octet-stream\",\"user_metadata\":\x7b\x7d," ++
    "\"mtime_epoch_ms\":0,\"delete_marker\":false\x7d]\x7d")

/-- The same manifest once the body is overwritten with `b` and its CRC-32. -/
def mixedManifest : VersionManifest :=
  ⟨1, [⟨NULL_VERSION_ID, etagB, 1, DEFAULT_CONTENT_TYPE, .empty, 0, false,
    some ⟨.crc32, "cb7v+Q=="⟩⟩]⟩

def mixedText : Bytes :=
  utf8 ("\x7b\"format\":1,\"versions\":[\x7b\"version_id\":\"null\",\"etag\":\"" ++ etagB ++
    "\",\"size\":1,\"content_type\":\"application/octet-stream\",\"user_metadata\":\x7b\x7d," ++
    "\"mtime_epoch_ms\":0,\"delete_marker\":false,\"checksum\":\x7b\"algorithm\":\"CRC32\"," ++
    "\"value\":\"cb7v+Q==\"\x7d\x7d]\x7d")

def earlierCrates : Crates where
  __ := sampleCrates
  crc32 _ := 0x71BEEFF9
  base64 _ := "cb7v+Q=="
  manifestJson := (sampleManifestJson.patch earlierManifest earlierText
      (Json.patch_ne (Json.patch_ne (Json.unary_ne (by decide)) (by decide)) (by decide))).patch
    mixedManifest mixedText (Json.patch_ne (Json.patch_ne (Json.patch_ne (Json.unary_ne (by decide))
      (by decide)) (by decide)) (by decide))

/-- A bucket with one object, whose manifest an earlier build has made. -/
def earlierWorld : World OsName :=
  ((writeJsonAtomic tmpDir (Place.manifest "abc" "k").path
    (earlierCrates.manifestJson.toVec earlierManifest)).run.run (engineExec sampleEnv)
    (serveAll sampleEnv earlierCrates (World.empty OsName)
      [(0, .openEngine), (0, .createBucket "abc"),
        (0, .putObject "abc" "k" [.ok (utf8 "a")] noOpts)]).2).2

/-- Overwriting that object with a checksum stores the checksum under the old stamp. -/
theorem overwrite_keeps_old_format :
    manifestAt earlierCrates earlierWorld.tree "abc" "k" = .ok (some earlierManifest) ∧
    manifestAt earlierCrates (serveAll sampleEnv earlierCrates earlierWorld
        [Put.req ⟨0, "abc", "k", [.ok (utf8 "b")], ⟨none, .empty, some .crc32⟩⟩]).2.tree "abc" "k" =
      .ok (some mixedManifest) := by
  decide +kernel

/-- A key stored by this build is overwritten: its manifest keeps this build's format. -/
theorem manifest_format_overwrite :
    ∃ (w w' : World OsName) (resps : List Resp), Readable sampleCrates sampleEnv.fits w.tree ∧
      serveAll sampleEnv sampleCrates w
        ([⟨0, "abc", "k", [.ok (utf8 "b")], noOpts⟩].map Put.req) = (resps, w') ∧
      ∀ b k, (b, k) ∈ storedKeys [⟨0, "abc", "k", [.ok (utf8 "b")], noOpts⟩] resps →
        ∃ m, manifestAt sampleCrates w'.tree b k = .ok (some m) ∧ m.format = MANIFEST_FORMAT := by
  obtain ⟨w, -, hrep⟩ := serveAll_start (C := sampleCrates)
    (fun _ => rfl : ∀ n, sampleEnv.fits n = true) 0
    [(0, .createBucket "abc"), (0, .putObject "abc" "k" [.ok (utf8 "a")] noOpts)]
  have hread : Readable sampleCrates sampleEnv.fits w.tree :=
    { hrep.toReady with legible := hrep.legible }
  refine ⟨w, _, _, hread, rfl,
    (manifest_format_iff (.of_all fun _ => rfl) hread _ rfl).1.mpr fun b k _ m hm => ?_⟩
  rw [hrep.manifestAt_eq] at hm
  obtain ⟨o, -, rfl⟩ := Option.map_eq_some_iff.mp (Except.ok.inj hm)
  rfl

end Aks3.Engine
