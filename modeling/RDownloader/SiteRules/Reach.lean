import RDownloader.SiteRules.Bolts

/-!
# A rule reaches nothing it may not

Links are handed on without being fetched, so they are checked where they are read from the
variables; with the groups and the second stage, this makes the bounds of a whole run.
-/

namespace RDownloader

namespace SiteRules

open Refusing

variable {Url : Type} {setting : Setting Url} {base : List (PortEvent Url)}

theorem absoluteLinks_delivered {run : Run Url} {value : Value} {link : String}
    (h : link ∈ Run.absoluteLinks setting run value) : Delivered setting.web link := by
  have hlink := List.mem_eraseDups.mp h
  obtain ⟨url, hurl, rfl⟩ := List.mem_map.mp hlink
  obtain ⟨text, -, htext⟩ := List.mem_filterMap.mp hurl
  split at htext
  · cases htext
  · obtain ⟨-, hdeliverable⟩ := Option.filter_eq_some_iff.mp htext
    simp only [Run.deliverable, Bool.decide_and, Bool.and_eq_true, decide_eq_true_eq] at hdeliverable
    refine ⟨url, rfl, hdeliverable.1, fun address haddress => ?_⟩
    simpa [haddress] using hdeliverable.2

theorem links_delivered {run : Run Url} {links : List String}
    (h : Run.links setting run = .ok links) : ∀ link ∈ links, Delivered setting.web link := by
  unfold Run.links at h
  split at h
  · cases h
  · split at h
    · cases h
    · split at h
      · cases h
      · cases h
        exact fun link => absoluteLinks_delivered

theorem numberMirrors_url {web : Web Url} {links : List String} {mirrors : Option GroupMirrors}
    {link : GroupLink} (h : link ∈ numberMirrors web links mirrors) : link.url ∈ links := by
  obtain ⟨⟨url, set⟩, hpair, rfl⟩ := List.mem_map.mp h
  exact (List.of_mem_zip hpair).1

/-- Every link of a group is delivered. -/
def CrawlGroup.Delivers (web : Web Url) (group : CrawlGroup) : Prop :=
  ∀ link ∈ group.links, Delivered web link.url

theorem groupEntries_keeps {groups : Groups} {fallback : Option String}
    {saved : List (String × Option Value)} {start deepest proposed : Nat} {way : List Url}
    {entries seen : List String} {found : List CrawlGroup} (hway : Reached way base)
    (hdepth : way.length ≤ start) (hdeepest : start ≤ deepest)
    (hfound : ∀ group ∈ found, group.Delivers setting.web) :
    Ensures (Since setting base)
      (Run.groupEntries setting groups fallback saved start way entries deepest seen proposed found)
      (fun answer run => Since setting base run ∧ start ≤ answer.1 ∧
        ∀ group ∈ answer.2, group.Delivers setting.web) (Since setting base) := by
  induction entries generalizing deepest seen proposed found with
  | nil => exact .pure fun _ hrun => ⟨hrun, hdeepest, hfound⟩
  | cons entry entries ih =>
    refine Ensures.bind (Q := fun _ => Since setting base)
      (.modify fun _ hrun => { hrun with }) fun _ => ?_
    refine (goTo_keeps hway hdepth).bind fun _ => ?_
    refine Ensures.bind (((Advances.steps groups.steps) base).weaken (fun _ => And.left)
      (fun _ _ => id) fun _ => id) fun _ => ?_
    refine Ensures.read fun run hrun => ?_
    have hdeeper := Nat.le_trans hdeepest (Nat.le_max_left deepest run.depth)
    dsimp only
    split
    · exact (ih hdeeper hfound).here hrun
    next value _ =>
      split
      · exact .throw fun _ heq => heq ▸ hrun
      · split
        · exact (ih hdeeper hfound).here hrun
        · refine (ih hdeeper fun group hgroup => ?_).here hrun
          obtain hgroup | hgroup := List.mem_append.mp hgroup
          · exact hfound group hgroup
          · obtain rfl := List.mem_singleton.mp hgroup
            intro link hlink
            exact absoluteLinks_delivered (List.mem_filter.mp (numberMirrors_url hlink)).1

theorem groups_keeps (groups : Groups) (fallback : Option String) :
    Ensures (Since setting base) (Run.groups setting groups fallback)
      (fun found run => Since setting base run ∧ ∀ group ∈ found, group.Delivers setting.web)
      (Since setting base) := by
  refine Ensures.read fun run hrun => ?_
  -- The page in hand was reached before the first entry, so the groups are followed from there.
  refine Ensures.weaken (P := (· = run))
    (Q := fun found next => Since setting run.trace next ∧
      ∀ group ∈ found, group.Delivers setting.web)
    (R := Since setting run.trace) ?_ (fun _ => id)
    (fun _ _ h => ⟨h.1.trans hrun.past, h.2⟩) fun _ h => h.trans hrun.past
  have hhere : Ensures (· = run) (MonadExcept.ofExcept
      (Run.read run setting.rule.steps.length "groups" groups.source))
      (fun _ => Since setting run.trace) (Since setting run.trace) :=
    Ensures.here (Advances.ofExcept run.trace) hrun.refl
  refine hhere.bind fun value => ?_
  split
  · exact .throw fun _ => id
  · refine Ensures.bind (groupEntries_keeps hrun.reached hrun.depth (Nat.le_refl _)
      (List.forall_mem_nil _)) fun (deepest, found) => ?_
    refine Ensures.bind (Q := fun _ next => Since setting run.trace next ∧ run.depth ≤ deepest ∧
        ∀ group ∈ found, group.Delivers setting.web)
      (.modify fun _ ⟨hnext, hfound⟩ => ⟨{ hnext with }, hfound⟩) fun _ => ?_
    refine Ensures.ofEach fun next ⟨hnext, hdeepest, hfound⟩ => ?_
    refine (Ensures.here (goTo_keeps hrun.reached (Nat.le_trans hrun.depth hdeepest)) hnext).bind
      fun _ => ?_
    split
    · exact .throw fun _ => And.left
    · exact .pure fun _ hafter => ⟨hafter.1, hfound⟩

/-- What a crawl hands on is delivered. -/
def Crawl.Delivers (web : Web Url) (crawl : Crawl Url) : Prop :=
  (∀ link ∈ crawl.links, Delivered web link) ∧ ∀ group ∈ crawl.groups, group.Delivers web

theorem linksOf_keeps {run : Run Url} : Ensures (Since setting base)
    (MonadExcept.ofExcept (Run.links setting run) : Crawling Url (List String))
    (fun links run => Since setting base run ∧ ∀ link ∈ links, Delivered setting.web link)
    (Since setting base) :=
  .ofExcept (fun _ => id) fun _ hlinks _ hrun => ⟨hrun, links_delivered hlinks⟩

theorem finish_keeps : Ensures (Since setting base) (Run.finish setting)
    (fun crawl run => Since setting base run ∧ crawl.Delivers setting.web) (Since setting base) := by
  refine Ensures.bind (Advances.get base) fun run => ?_
  dsimp only
  split
  · refine Ensures.bind (Advances.checkTime base) fun _ => ?_
    refine linksOf_keeps.bind fun _ => ?_
    exact .pure fun _ ⟨hrun, hlinks⟩ => ⟨hrun, hlinks, List.forall_mem_nil _⟩
  next grouping _ =>
    split
    · refine Ensures.bind (Advances.ofExcept base) fun _ => ?_
      refine Ensures.bind (Advances.checkTime base) fun _ => ?_
      exact .pure fun _ hrun => ⟨hrun, List.forall_mem_nil _, List.forall_mem_nil _⟩
    · refine (groups_keeps grouping _).bind fun found => ?_
      refine Ensures.ofEach fun run ⟨hrun, hfound⟩ => ?_
      refine Ensures.bind (Ensures.here (Advances.checkTime base) hrun) fun _ => ?_
      refine Ensures.bind (Advances.get base) fun _ => ?_
      refine .pure fun _ hnext => ⟨hnext, fun link hlink => ?_, hfound⟩
      obtain ⟨group, hgroup, hlink⟩ := List.mem_flatMap.mp hlink
      obtain ⟨found, hfound', rfl⟩ := List.mem_map.mp hlink
      exact hfound group hgroup found hfound'

theorem finishEntry_keeps {groups : Groups} {entry : PickEntry} :
    Ensures (Since setting base) (Run.finishEntry setting groups entry)
      (fun group run => Since setting base run ∧ group.Delivers setting.web)
      (Since setting base) := by
  refine Ensures.bind (Advances.checkTime base) fun _ => ?_
  refine Ensures.bind (Advances.get base) fun run => ?_
  refine linksOf_keeps.bind fun links => ?_
  exact .pure fun _ ⟨hrun, hlinks⟩ => ⟨hrun, fun link hlink => hlinks _ (numberMirrors_url hlink)⟩

/-- Nothing was asked before a run. -/
theorem Since.begin {run : Run Url} (hpages : run.pages = 0) (hway : run.way = [])
    (htrace : run.trace = []) : Since setting [] run where
  bolted := htrace ▸ .nil
  seen := by simp [htrace, requests]
  pages := by simp [hpages, htrace, requests]
  depth := by simp [hway]
  reached := .inl hway
  past := List.nil_suffix

namespace Executor

/-- What was asked of the world, and what is handed on. -/
structure Bounded {α : Type} (executor : Executor Url) (rule : Rule) (given : Url)
    (delivers : α → Prop) (outcome : Except RunError α × List (PortEvent Url)) : Prop where
  bolted : Bolted executor.web executor.limits rule ((executor.web.hostStr given).getD "") outcome.2
  delivers : ∀ answer, outcome.1 = .ok answer → delivers answer

variable {executor : Executor Url} {rule : Rule} {given address : Url} {paused : Bool} {α : Type}

theorem Bounded.unasked {error : RunError} {delivers : α → Prop} :
    executor.Bounded rule given delivers (.error error, []) :=
  ⟨.nil, nofun⟩

theorem Bounded.ofEnsures {delivers : α → Prop} {program : Crawling Url α} {run : Run Url}
    (h : Ensures (Since (executor.setting rule address given paused) []) program
      (fun answer next => Since (executor.setting rule address given paused) [] next ∧
        delivers answer)
      (Since (executor.setting rule address given paused) []))
    (hrun : Since (executor.setting rule address given paused) [] run) :
    executor.Bounded rule given delivers
      ((Refusing.exec program run).1, (Refusing.exec program run).2.trace) := by
  have hmeets := h run hrun
  generalize Refusing.exec program run = outcome at hmeets
  match outcome with
  | (.ok answer, next) =>
    exact ⟨hmeets.1.bolted, fun other heq => Except.ok.inj heq ▸ hmeets.2⟩
  | (.error _, next) => exact ⟨hmeets.bolted, nofun⟩

theorem run_bounded : executor.Bounded rule given (Crawl.Delivers executor.web)
    (executor.run rule given) := by
  unfold run
  dsimp only
  split
  · exact .ofEnsures (Ensures.bind (Advances.steps _ []) fun _ => finish_keeps)
      (.begin rfl rfl rfl)
  · exact .unasked

theorem resolve_bounded {list : PickList} {index : Nat} :
    executor.Bounded rule given (CrawlGroup.Delivers executor.web)
      (executor.resolve rule given list index) := by
  unfold resolve
  split
  · dsimp only
    exact .ofEnsures (Ensures.bind (Advances.steps _ []) fun _ => finishEntry_keeps)
      (.begin rfl rfl rfl)
  · exact .unasked

/-- A rule reaches nothing it may not, in either stage. -/
theorem always_bounded (executor : Executor Url) (rule : Rule) (given : Url) :
    executor.Bounded rule given (Crawl.Delivers executor.web) (executor.run rule given) ∧
      ∀ list index, executor.Bounded rule given (CrawlGroup.Delivers executor.web)
        (executor.resolve rule given list index) :=
  ⟨run_bounded, fun _ _ => resolve_bounded⟩

end Executor

end SiteRules

end RDownloader
