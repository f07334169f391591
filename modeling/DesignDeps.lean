import DesignDeps.CommandLine
import DesignDeps.Main
import DesignDeps.Proofs.Disk.Files
import DesignDeps.Proofs.Walk.Termination
import DesignDeps.Proofs.Walk.Sources
import DesignDeps.Proofs.Walk.Coverage
import DesignDeps.Proofs.Disk.Directory
import DesignDeps.Proofs.Walk.Output
import DesignDeps.Proofs.Walk.Contents
import DesignDeps.Proofs.Walk.Incremental
import DesignDeps.Proofs.Extraction
import DesignDeps.Proofs.Walk.Success
import DesignDeps.Proofs.Fragment.Prerequisites
import DesignDeps.Proofs.Walk.Cycles
import DesignDeps.Proofs.Walk.BackEdges
import DesignDeps.Proofs.Walk.Variants
import DesignDeps.Proofs.Walk.Times
import DesignDeps.Proofs.Walk.Journal
import DesignDeps.Proofs.Walk.Accounts
import DesignDeps.Proofs.Walk.Again
import DesignDeps.Proofs.Disk.Flat
import DesignDeps.Proofs.Walk.Closure
import DesignDeps.Proofs.Fragment.Makefile
import DesignDeps.Proofs.Fragment.Expansion
import DesignDeps.Proofs.Fragment.Statements
import DesignDeps.Proofs.Walk.Accumulators
import DesignDeps.Proofs.Generation.Frame
import DesignDeps.Proofs.Generation.Fragments
import DesignDeps.Proofs.Override.Flattening
import DesignDeps.Proofs.Override.Cycles
import DesignDeps.Proofs.Extraction.Instances
import DesignDeps.Proofs.Extraction.Comments
import DesignDeps.Proofs.Extraction.Packages
import DesignDeps.Proofs.Extraction.Joins
import DesignDeps.Proofs.Listing.Candidates
import DesignDeps.Proofs.Skeleton.Collapse
import DesignDeps.Proofs.Skeleton.Stripping
import DesignDeps.Proofs.Extraction.Includes
import DesignDeps.Proofs.Resolver.Names
import DesignDeps.Proofs.Override.Reuse
import DesignDeps.Proofs.Override.Sources
import DesignDeps.Proofs.Override.Termination
import DesignDeps.Proofs.Fragment.Identity
import DesignDeps.Proofs.Generation.Headers
import DesignDeps.Proofs.Skeleton.Slices
