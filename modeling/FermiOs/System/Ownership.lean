import FermiOs.System.Step

/-!
# Owners of physical pages

Every page a task records, and every page of a page table, has one owner and is marked in the bitmap,
in every run in which each fork gets the pages it asks for while it copies the regions of its parent.

When such a request is refused, the copied records still name pages of the parent, and the code that
undoes the copy frees whatever the records name. The parent goes on with a page that is free.
-/

namespace FermiOs.Sys
open Library

/-- Each page recorded by a task, or used by its table, is recorded once and is allocated. -/
def PagesOwnedOnce (s : Sys) : Prop := s.k.Owns (pagesOf s.k s.queue.all)

/-- **One owner for every page**, in every run whose forks copy the regions completely. -/
theorem pages_owned_once {s : Sys}
    (h : Reach Boot (fun s a => s.Allowed a.2 ∧ s.ForksCopy a) step s) : s.PagesOwnedOnce := by
  obtain ⟨b, hb⟩ := reach_owned h
  exact Ledger.drop_front hb.pages

/-- A task maps a page, writes to it and forks with memory to spare; the child runs. -/
theorem pages_owned_once_family : ([([], .create true), ([], .yield),
      ([], .call (.mem (.mmap 0 4096 3 0x22 (2 ^ 64 - 1) 0))),
      ([], .call (.access userMmapBase (.store 1))), ([], .fork), ([], .yield)].foldl step
        smallBoot).PagesOwnedOnce :=
  pages_owned_once (reach_small _ (by decide +kernel))

/-- A page that is recorded but not marked in use. -/
lemma not_ownedOnce {s : Sys} (pfn : Nat) (hmem : pfnToPhys pfn ∈ pagesOf s.k s.queue.all)
    (hclear : s.k.pmm.bitmap pfn = false) : ¬ s.PagesOwnedOnce := by
  intro h
  obtain ⟨-, -, hset⟩ := (s.k.pmm.allocated_pfnToPhys pfn).mp (h.2 _ hmem)
  rw [hclear] at hset
  cases hset

/-- The same, but the page for the copy of the mapped page is refused: the parent's own page is
freed while its region still records it. -/
theorem fork_frees_parents_page : ∃ s, Reach Boot (fun s a => s.Allowed a.2) step s ∧
    ¬ s.PagesOwnedOnce := by
  refine ⟨_, reach_small [([], .create true), ([], .yield),
    ([], .call (.mem (.mmap 0 4096 3 0x22 (2 ^ 64 - 1) 0))),
    ([], .call (.access userMmapBase (.store 1))),
    (List.replicate 11 .ok ++ [.fail], .fork)] (by decide +kernel), ?_⟩
  exact not_ownedOnce 17 (by decide +kernel) (by decide +kernel)

end FermiOs.Sys
