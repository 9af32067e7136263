import ElmWrap.PgSolver.NoSolution
import ElmWrap.PgSolver.Backjump
import ElmWrap.Solver.AddPackages
import ElmWrap.Solver.Agreement
import ElmWrap.Solver.Completeness
import ElmWrap.Registry.Stored
import ElmWrap.InstallEnv.UpToDate
import ElmWrap.V2Index.Lossless
import ElmWrap.V2Index.NewestFirst
import ElmWrap.V2Index.Arrays
import ElmWrap.Project.ListedOnce
import ElmWrap.Project.ConstraintRuns
import ElmWrap.Install.Agreement
import ElmWrap.Install.Places
import ElmWrap.LocalDev.RegistryDat
import ElmWrap.InstallEnv.PackageCache
import ElmWrap.Cache.FailLog
import ElmWrap.Build.BuildPlan
import ElmWrap.LocalDev.TextRuns
import ElmWrap.LocalDev.Prune
import ElmWrap.Docs.Resolution
import ElmWrap.Docs.ElmDocsExact
import ElmWrap.RangeAlgebra
import ElmWrap.PgSolver.TrailStates
import ElmWrap.PgSolver.Descent
import ElmWrap.Archive.Confinement
import ElmWrap.Kit.StoredVersions
import ElmWrap.Mirror.Resumption
import ElmWrap.Publish.PublishSet
import ElmWrap.VersionLimits
import ElmWrap.Registry.Resolve
import ElmWrap.Build.ArtifactStatus
import ElmWrap.ConstraintText
import ElmWrap.Build.Attribution
import ElmWrap.Lib.DepthFirst
import ElmWrap.ImportTree.Redundant
import ElmWrap.ImportTree.Arrays
import ElmWrap.PgSolver.FailureText
import ElmWrap.Mirror.Reload
import ElmWrap.Exposed.ScanAgreement
import ElmWrap.PackageSuggestions
import ElmWrap.Registry.Resolvers
import ElmWrap.Install.UpgradesRight
import ElmWrap.Kit.ReadOrder
import ElmWrap.Extract.Demotion
import ElmWrap.Review.RedundantFiles
import ElmWrap.Wrappers.DownloadAll
import ElmWrap.Extract.Moves
import ElmWrap.Kit.Grammar
import ElmWrap.Review.MissingTypeExpose
import ElmWrap.Alloc.ArenaAlloc
import ElmWrap.Hash.Sha1
import ElmWrap.Hash.Sha256
import ElmWrap.ElmJson.RoundTrip
