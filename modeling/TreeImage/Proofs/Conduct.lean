import TreeImage.Build
import TreeImage.Proofs.Sizing
import TreeImage.Proofs.Walk

/-!
# The conduct of a run

What a run asks of its surroundings, call by call, and when it writes. A run lists, then asks for
sizes, then reads, then writes; it goes from one of these to the next only when all of the one
before has succeeded, and the image is written in one call that comes last. Nothing follows a call
that failed.
-/

namespace TreeImage

/-- What a build does after capturing. -/
inductive Image.Built (root : Path) : Outcome (Tree Unit) → List Call → List Call →
    Outcome Image → Prop
  | uncaptured (failure : Failure) : Built root (.failed failure) [] [] (.failed failure)
  | unfinished : Built root .unfinished [] [] .unfinished
  | unplanned {tree : Tree Unit} {failure : Failure} : tree.plan = .error failure →
      Built root (.done tree) [] [] (.failed failure)
  | packed {tree : Tree Unit} {layout : Layout} {sized read : List Call}
      {outcome : Outcome Image} : tree.plan = .ok layout → Packed root layout sized read outcome →
      Built root (.done tree) sized read outcome

/-- What a run does with its image. -/
inductive Config.Delivered (config : Config) (image : Image) : List Call → Outcome Image → Prop
  | unreadable {failure : Failure} : config.verify = true →
      Reading.ofBytes image.bytes = .error failure → Delivered config image [] (.failed failure)
  | unwritten (failure : Failure) :
      (config.verify = true → ∃ reading, Reading.ofBytes image.bytes = .ok reading) →
      Delivered config image [⟨.write config.output image.bytes, .error failure⟩] (.failed failure)
  | written : (config.verify = true → ∃ reading, Reading.ofBytes image.bytes = .ok reading) →
      Delivered config image [⟨.write config.output image.bytes, .ok ()⟩] (.done image)

section Surroundings

variable {σ : Type} (respond : (request : Request) → σ → request.Answer × σ)

theorem Image.build_calls (depth : Nat) (root : Path) (state : σ) :
    ∃ isDirectory listed sized read,
      (build depth root).calls respond state =
        ⟨.isDirectory root, isDirectory⟩ :: (listed ++ sized ++ read) ∧
      Tree.Captured root isDirectory listed ((Tree.capture depth root).run respond state).outcome ∧
      Built root ((Tree.capture depth root).run respond state).outcome sized read
        ((build depth root).run respond state).outcome := by
  obtain ⟨isDirectory, listed, hcalls, hcaptured⟩ := Tree.captured_of_capture
    (Session.course_run respond (Tree.capture depth root) state)
  refine ⟨isDirectory, listed, ?_⟩
  rw [build]
  rcases Session.bind_cases respond (Tree.capture depth root) _ state with
    ⟨tree, htree, hall, houtcome⟩ | ⟨failure, hfailed, hall, houtcome⟩ |
    ⟨hunfinished, hall, houtcome⟩
  · rw [htree] at hcaptured
    have hpacking := Session.course_run respond
      (Session.ofExcept tree.plan >>= fun layout => do
        Session.report (.planned layout.entries.length layout.fileCount)
        pack root layout) ((Tree.capture depth root).run respond state).state
    rw [hall, houtcome, htree, hcalls]
    rcases Session.Course.of_ofExcept_bind hpacking with ⟨layout, hplan, hpack⟩ |
      ⟨failure, hplan, hnone, hfailed⟩
    · obtain ⟨sized, read, hlater, hpacked⟩ := packed_of_pack (Session.Course.of_report_bind hpack)
      refine ⟨sized, read, ?_, hcaptured, .packed hplan hpacked⟩
      rw [hlater, List.cons_append, List.append_assoc]
    · refine ⟨[], [], ?_, hcaptured, ?_⟩
      · rw [hnone]
        simp
      · rw [hfailed]
        exact .unplanned hplan
  · refine ⟨[], [], ?_, hcaptured, ?_⟩
    · rw [hall, hcalls]
      simp
    · rw [houtcome, hfailed]
      exact .uncaptured failure
  · refine ⟨[], [], ?_, hcaptured, ?_⟩
    · rw [hall, hcalls]
      simp
    · rw [houtcome, hunfinished]
      exact .unfinished

end Surroundings

namespace Config

variable {config : Config} {image : Image} {calls : List Call} {outcome : Outcome Image}

theorem delivered_of_handOver (hread : config.verify = true →
    ∃ reading, Reading.ofBytes image.bytes = .ok reading)
    (h : (config.handOver image).Course calls outcome) : config.Delivered image calls outcome := by
  obtain ⟨answer, later, rfl, hanswer⟩ := Session.Course.of_ask h
  rcases Session.Course.of_ofExcept_bind hanswer with ⟨⟨⟩, rfl, hend⟩ | ⟨failure, rfl, rfl, rfl⟩
  · have hreported := Session.Course.of_report_bind hend
    obtain ⟨rfl, rfl⟩ := Session.Course.of_done hreported
    exact .written hread
  · exact .unwritten failure hread

theorem delivered_of_deliver (h : (config.deliver image).Course calls outcome) :
    config.Delivered image calls outcome := by
  rw [deliver] at h
  split at h
  · next hverify =>
    rw [Image.verify, Session.bind_assoc] at h
    rcases Session.Course.of_ofExcept_bind h with ⟨reading, hreading, hnext⟩ |
      ⟨failure, hreading, rfl, rfl⟩
    · exact delivered_of_handOver (fun _ => ⟨reading, hreading⟩)
        (Session.Course.of_report_bind hnext)
    · exact .unreadable hverify hreading
  · next hverify => exact delivered_of_handOver (fun h => absurd h hverify) h

end Config

theorem Config.Delivered.endAtFailure {config : Config} {image : Image} {written : List Call}
    {outcome : Outcome Image} (h : config.Delivered image written outcome) :
    Call.EndAtFailure outcome.failure? written := by
  cases h with
  | unreadable => trivial
  | unwritten failure => exact Call.endAtFailure_singleton fun other hother => hother
  | written => exact Call.endAtFailure_singleton fun other hother => by cases hother

/-! ## Whole runs -/

namespace Image

variable {root : Path} {captured : Outcome (Tree Unit)} {sized read : List Call}
  {built : Outcome Image}

theorem Packed.sized_begins {layout : Layout} (h : Packed root layout sized read built) :
    sized.map Call.request <+:
      (layout.entries.filterMap (Entry.source? root)).map Request.size := by
  have hfiles : ∀ files : List (Path × Nat), (files.map Call.ofSize).map Call.request =
      (files.map Prod.fst).map Request.size := by
    intro files
    simp [Function.comp_def, Call.ofSize]
  cases h with
  | headerRegion => exact List.nil_prefix
  | fileCount => exact List.nil_prefix
  | refused _ _ hplaced =>
    cases hplaced with
    | @failed passed rest entry files last failure hentries hsized _ hrefused =>
      have hlast : last.map Call.request <+: ((entry :: rest).filterMap
          (Entry.source? root)).map Request.size := by
        cases hrefused with
        | name => exact List.nil_prefix
        | size => exact ⟨_, rfl⟩
        | length => exact ⟨_, rfl⟩
        | offset => exact ⟨_, rfl⟩
      rw [hentries, List.filterMap_append, List.map_append, List.map_append, hfiles,
        hsized.sources]
      exact (List.prefix_append_right_inj _).mpr hlast
  | totalSize hsized => exact hsized.sources ▸ hfiles _ ▸ List.prefix_rfl
  | unread hfits _ => exact hfits.sized.sources ▸ hfiles _ ▸ List.prefix_rfl
  | done _ hfits => exact hfits.sized.sources ▸ hfiles _ ▸ List.prefix_rfl

/-- What is read are the files whose sizes were asked for, and all of these were obtained. -/
theorem Packed.read_begins {layout : Layout} (h : Packed root layout sized read built)
    (hread : read ≠ []) :
    ∃ files, layout.Fits root files ∧ sized = files.map Call.ofSize ∧
      read.map Call.request <+: (files.map Prod.fst).map Request.contents := by
  have hcontents : ∀ contents : List (Path × Bytes),
      (contents.map Call.ofContents).map Call.request =
        ((contents.map measure).map Prod.fst).map Request.contents := by
    intro contents
    simp [Function.comp_def, Call.ofContents, measure]
  cases h with
  | headerRegion => exact absurd rfl hread
  | fileCount => exact absurd rfl hread
  | refused => exact absurd rfl hread
  | totalSize => exact absurd rfl hread
  | @unread files _ _ hfits hin =>
    refine ⟨files, hfits, rfl, ?_⟩
    cases hin with
    | @failed contents file rest call failure hfiles hunread =>
      have hlast : [call].map Call.request <+:
          ((file :: rest).map Prod.fst).map Request.contents := by
        cases hunread with
        | failed => exact ⟨_, rfl⟩
        | resized => exact ⟨_, rfl⟩
      rw [hfiles, List.map_append, List.map_append, List.map_append, hcontents]
      exact (List.prefix_append_right_inj _).mpr hlast
  | @done contents _ hfits => exact ⟨_, hfits, rfl, hcontents contents ▸ List.prefix_rfl⟩

theorem Built.endAtFailure (h : Built root captured sized read built) :
    Call.EndAtFailure built.failure? (sized ++ read) := by
  cases h with
  | uncaptured => trivial
  | unfinished => trivial
  | unplanned => trivial
  | packed _ hpacked => exact hpacked.endAtFailure

/-- Where the capture failed or did not end, nothing more is asked for. -/
theorem Built.eq_nil_or_done (h : Built root captured sized read built) :
    (sized = [] ∧ read = [] ∧ captured.failure? = built.failure?) ∨
      ∃ tree, captured = .done tree := by
  cases h with
  | uncaptured => exact .inl ⟨rfl, rfl, rfl⟩
  | unfinished => exact .inl ⟨rfl, rfl, rfl⟩
  | unplanned => exact .inr ⟨_, rfl⟩
  | packed => exact .inr ⟨_, rfl⟩

theorem Built.unfinished_iff (h : Built root captured sized read built) :
    built = .unfinished ↔ captured = .unfinished := by
  cases h with
  | uncaptured => simp
  | unfinished => simp
  | unplanned => simp
  | packed _ hpacked => cases hpacked <;> simp

/-- A build ends with its first call that failed. -/
theorem endAtFailure_of_built {isDirectory : Bool} {listed : List Call}
    (hcaptured : Tree.Captured root isDirectory listed captured)
    (hbuilt : Built root captured sized read built) :
    Call.EndAtFailure built.failure?
      (⟨.isDirectory root, isDirectory⟩ :: (listed ++ sized ++ read)) := by
  have hlisted := hcaptured.endAtFailure
  rcases hbuilt.eq_nil_or_done with ⟨rfl, rfl, hfailure⟩ | ⟨tree, rfl⟩
  · rw [List.append_nil, List.append_nil, ← hfailure]
    exact hlisted
  · rw [List.append_assoc, ← List.cons_append]
    exact Call.endAtFailure_append hlisted.forall_of_none hbuilt.endAtFailure

end Image

/-- How a run goes that makes these calls in turn. -/
structure Config.Conduct (config : Config) (captured : Outcome (Tree Unit))
    (built outcome : Outcome Image) (isDirectory : Bool) (listed sized read written : List Call) :
    Prop where
  /-- The directories are listed in pre-order, each place of the tree once, up to the first listing
  that fails; nothing is listed if the root is no directory. -/
  listing : Tree.Captured config.source isDirectory listed captured
  /-- Only a tree that was captured and planned is packed, and its entries are checked in order up
  to the first one that fails a check. -/
  packing : Image.Built config.source captured sized read built
  /-- The sizes are those of the file entries in their order. -/
  sizing : ∀ tree layout, captured = .done tree → tree.plan = .ok layout →
    sized.map Call.request <+:
      (layout.entries.filterMap (Entry.source? config.source)).map Request.size
  /-- Nothing is read unless all names were accepted, all sizes obtained and all fields found to
  fit; then the same files are read in the same order. -/
  reading : read ≠ [] → ∃ tree layout files, captured = .done tree ∧ tree.plan = .ok layout ∧
    layout.Fits config.source files ∧ sized = files.map Call.ofSize ∧
    read.map Call.request <+: (files.map Prod.fst).map Request.contents
  /-- Something is written just if the build succeeded and what it built can be read, where that was
  asked for. -/
  writing : written ≠ [] ↔ ∃ image, built = .done image ∧
    (config.verify = true → ∃ parsed, Reading.ofBytes image.bytes = .ok parsed)
  /-- It is the whole image, in one call. -/
  whole : written ≠ [] → ∃ image answer, built = .done image ∧
    written = [⟨.write config.output image.bytes, answer⟩]
  done_iff : ∀ image, outcome = .done image ↔
    built = .done image ∧ written = [⟨.write config.output image.bytes, .ok ()⟩]
  unfinished_iff : outcome = .unfinished ↔ captured = .unfinished

namespace Config

variable {config : Config} {captured : Outcome (Tree Unit)} {built outcome : Outcome Image}
  {isDirectory : Bool} {listed sized read written : List Call}

theorem sizing_of_built (h : Image.Built config.source captured sized read built)
    {tree : Tree Unit} {layout : Layout} (htree : captured = .done tree)
    (hplan : tree.plan = .ok layout) : sized.map Call.request <+:
      (layout.entries.filterMap (Entry.source? config.source)).map Request.size := by
  subst htree
  cases h with
  | unplanned => exact List.nil_prefix
  | packed hplan' hpacked =>
    rw [hplan, Except.ok.injEq] at hplan'
    subst hplan'
    exact hpacked.sized_begins

theorem reading_of_built (h : Image.Built config.source captured sized read built)
    (hread : read ≠ []) : ∃ tree layout files, captured = .done tree ∧ tree.plan = .ok layout ∧
      layout.Fits config.source files ∧ sized = files.map Call.ofSize ∧
      read.map Call.request <+: (files.map Prod.fst).map Request.contents := by
  cases h with
  | uncaptured => exact absurd rfl hread
  | unfinished => exact absurd rfl hread
  | unplanned => exact absurd rfl hread
  | packed hplan hpacked =>
    obtain ⟨files, hfits, hsized, hbegins⟩ := hpacked.read_begins hread
    exact ⟨_, _, files, rfl, hplan, hfits, hsized, hbegins⟩

/-- A run whose build gives no image ends like the build and writes nothing. -/
theorem conduct_of_not_done (hcaptured : Tree.Captured config.source isDirectory listed captured)
    (hbuilt : Image.Built config.source captured sized read built)
    (hnone : ∀ image, built ≠ .done image) :
    config.Conduct captured built built isDirectory listed sized read [] where
  listing := hcaptured
  packing := hbuilt
  sizing _ _ := sizing_of_built hbuilt
  reading := reading_of_built hbuilt
  writing := by simp [hnone]
  whole h := absurd rfl h
  done_iff := by simp [hnone]
  unfinished_iff := hbuilt.unfinished_iff

theorem conduct_of_delivered {image : Image}
    (hcaptured : Tree.Captured config.source isDirectory listed captured)
    (hbuilt : Image.Built config.source captured sized read (.done image))
    (hdelivered : config.Delivered image written outcome) :
    config.Conduct captured (.done image) outcome isDirectory listed sized read written where
  listing := hcaptured
  packing := hbuilt
  sizing _ _ := sizing_of_built hbuilt
  reading := reading_of_built hbuilt
  writing := by
    cases hdelivered with
    | unreadable hverify hreading => simp [hverify, hreading]
    | unwritten failure hreadable => simpa using hreadable
    | written hreadable => simpa using hreadable
  whole h := by
    cases hdelivered with
    | unreadable => exact absurd rfl h
    | unwritten failure => exact ⟨image, _, rfl, rfl⟩
    | written => exact ⟨image, _, rfl, rfl⟩
  done_iff other := by
    cases hdelivered with
    | unreadable => simp
    | unwritten failure => simp
    | written =>
      constructor
      · rintro ⟨⟩
        exact ⟨rfl, rfl⟩
      · intro h
        exact h.1
  unfinished_iff := by
    have hend := hbuilt.unfinished_iff
    rw [← hend]
    cases hdelivered <;> simp

/-- Whatever the surroundings answer, a run asks whether its root is a directory, lists, asks for
sizes, reads and writes in this order, and asks for nothing else. It stops at the first call that
fails, writes nothing before all else has succeeded, and succeeds just if the image was written. -/
theorem run_conduct {σ : Type} (respond : (request : Request) → σ → request.Answer × σ)
    (depth : Nat) (config : Config) (state : σ) :
    ∃ isDirectory listed sized read written,
      (config.run depth).calls respond state =
        ⟨.isDirectory config.source, isDirectory⟩ :: (listed ++ sized ++ read ++ written) ∧
      ((config.run depth).run respond state).requests =
        ((config.run depth).calls respond state).map Call.request ∧
      Call.EndAtFailure ((config.run depth).run respond state).outcome.failure?
        ((config.run depth).calls respond state) ∧
      config.Conduct ((Tree.capture depth config.source).run respond state).outcome
        ((Image.build depth config.source).run respond state).outcome
        ((config.run depth).run respond state).outcome isDirectory listed sized read written := by
  obtain ⟨isDirectory, listed, sized, read, hcalls, hcaptured, hbuilt⟩ :=
    Image.build_calls respond depth config.source state
  have hprompt := Image.endAtFailure_of_built hcaptured hbuilt
  have hrun : ((config.run depth).run respond state).outcome =
      ((Image.build depth config.source >>= config.deliver).run respond state).outcome := rfl
  have hruncalls : (config.run depth).calls respond state =
      (Image.build depth config.source >>= config.deliver).calls respond state := rfl
  rw [Session.requests_run, hrun, hruncalls]
  rcases Session.bind_cases respond (Image.build depth config.source) config.deliver state with
    ⟨image, himage, hall, houtcome⟩ | ⟨failure, hfailed, hall, houtcome⟩ |
    ⟨hunfinished, hall, houtcome⟩
  · have hdelivered := delivered_of_deliver (Session.course_run respond (config.deliver image)
      ((Image.build depth config.source).run respond state).state)
    rw [himage] at hprompt hbuilt
    rw [hall, houtcome, hcalls, himage]
    refine ⟨isDirectory, listed, sized, read, _, rfl, rfl, ?_,
      conduct_of_delivered hcaptured hbuilt hdelivered⟩
    exact Call.endAtFailure_append hprompt.forall_of_none hdelivered.endAtFailure
  · rw [hfailed] at hprompt hbuilt
    rw [hall, houtcome, hcalls, hfailed]
    refine ⟨isDirectory, listed, sized, read, [], by rw [List.append_nil], rfl, hprompt,
      conduct_of_not_done hcaptured hbuilt (by simp)⟩
  · rw [hunfinished] at hprompt hbuilt
    rw [hall, houtcome, hcalls, hunfinished]
    refine ⟨isDirectory, listed, sized, read, [], by rw [List.append_nil], rfl, hprompt,
      conduct_of_not_done hcaptured hbuilt (by simp)⟩

end Config

end TreeImage
