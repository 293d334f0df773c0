import MixSim.Adaptor.Conservation
import MixSim.Adaptor.Suppression
import MixSim.Adaptor.Ingress
import MixSim.Adaptor.Occupancy
import MixSim.Adaptor.Leakage
import MixSim.Adaptor.NipPktTools
import MixSim.Simulator.Received
import MixSim.Simulator.ProviderVirtual
import MixSim.Simulator.Names
import MixSim.Simulator.Lengths
import MixSim.Simulator.Ticks
import MixSim.Adaptor.LfqProgress
import MixSim.Adaptor.LfqTids
import MixSim.Adaptor.LfqClean
import MixSim.Adaptor.LfqSolo
import MixSim.Adaptor.Sources
import MixSim.Border.Safety
import MixSim.Adaptor.Service
import MixSim.Simulator.Prefixes
import MixSim.Adaptor.Losses
import MixSim.Border.Delivery
