import ReadexPtf.Scorep.TuningRuns
import ReadexPtf.Scorep.TuningChanges
import ReadexPtf.Atp.Specs
import ReadexPtf.Registry.Runs
import ReadexPtf.QualExpr.ManagerRuns
import ReadexPtf.Rts.FrontendRuns
import ReadexPtf.Agents.ApplicationRuns
import ReadexPtf.Agents.FrontendHandlerRuns
import ReadexPtf.Agents.HierarchyRounds
import ReadexPtf.Agents.Calltree
import ReadexPtf.MpiParameters.Repetitions
import ReadexPtf.TuningModel.AverageSelector
import ReadexPtf.TuningModel.Merge
import ReadexPtf.Autotune.IndividualATPRuns
import ReadexPtf.Autotune.GDE3Optimal
import ReadexPtf.Autotune.GDE3Selection
import ReadexPtf.Autotune.GDE3Termination
import ReadexPtf.Autotune.IndependentParametersModel
import ReadexPtf.Autotune.Objectives
import ReadexPtf.Rts.AgentAttach
import ReadexPtf.Rts.CallPaths
import ReadexPtf.Agents.RegionId
import ReadexPtf.Agents.WindowSums
import ReadexPtf.Agents.PerformanceRuns
import ReadexPtf.CubeTools.InfluencedRegion
import ReadexPtf.CubeTools.MatchOffset
import ReadexPtf.Rts.ParameterRequests
import ReadexPtf.Agents.ClusterMeans
import ReadexPtf.Agents.RequiredRegions
import ReadexPtf.Frontend.Timers
import ReadexPtf.Registry.KeyValuePairs
import ReadexPtf.QualExpr.Database
import ReadexPtf.QualExpr.Times
import ReadexPtf.QualExpr.Grammar
import ReadexPtf.Registry.BlockReads
import ReadexPtf.Agents.AttachProcesses
import ReadexPtf.Agents.Notifications
import ReadexPtf.Scorep.TuningGrowth
import ReadexPtf.Agents.Bursts
import ReadexPtf.Intraphase.BestResults
import ReadexPtf.Interphase.Divisions
import ReadexPtf.Masterworker.Pfsim
import ReadexPtf.Masterworker.CalculatePi
import ReadexPtf.MpiParameters.Intervals
import ReadexPtf.Pcap.Regions
import ReadexPtf.CompilerFlags.ResultTable
import ReadexPtf.TuningDatabase.Json
import ReadexPtf.ReadexConfiguration.Advice
import ReadexPtf.Cluster.Clusterer
import ReadexPtf.Cluster.HeightCut
import ReadexPtf.Agents.StartupProgress
